import Mathlib.Data.List.Forall2
import JavaSyntax.Proofs.Tree.Disambiguated
import JavaSyntax.Proofs.Tree.Table

namespace JavaSyntax

structure Head where
  kind : Kind
  image : Option String

namespace Head

def read (h : Head) : Reading → Head
  | .kept => h
  | .wrapped | .namedAndWrapped => ⟨.typeExpression, none⟩
  | .named => ⟨.classType, h.image⟩

/-- What stands below a node once it has settled its first child. -/
def settle (h : Head) : List Head → List Head
  | [] => []
  | c :: cs => c.read (.ofNode h.kind h.image c.kind) :: cs

theorem settle_of_not_isQualified {h : Head} (h₁ : h.kind ≠ .methodReference)
    (h₂ : h.kind ≠ .classLiteral) (h₃ : h.kind ≠ .thisExpression) (cs : List Head) :
    h.settle cs = cs := by
  cases cs with
  | nil => rfl
  | cons c cs => rw [settle, Reading.ofNode_eq_kept h₁ h₂ h₃, read]

end Head

namespace Branch

def head (b : Branch) : Head := ⟨b.kind, b.image⟩

def heads (b : Branch) : List Head := b.children.map head

theorem head_read (b : Branch) (r : Reading) : (b.read r).head = b.head.read r := by
  cases r <;> rfl

theorem head_settleFirst (b : Branch) : b.settleFirst.head = b.head := by
  unfold settleFirst
  split <;> rfl

theorem head_disambiguated (b : Branch) : b.disambiguated.head = b.head := by
  cases b
  exact head_settleFirst _

theorem map_head_rebuiltAll (bs : List Branch) :
    (rebuiltAll settleFirst bs).map head = bs.map head := by
  induction bs with
  | nil => rfl
  | cons b bs ih =>
    rw [rebuiltAll, List.map_cons, List.map_cons, ih]
    exact congrArg (· :: bs.map head) (head_disambiguated b)

variable {R : Head → List Head → Prop}

/-- A node that settles a name puts new nodes around it, of which `R` holds whatever they are made of. -/
structure Admits (R : Head → List Head → Prop) : Prop where
  named : ∀ image, R ⟨.classType, image⟩ []
  wrapped : ∀ h : Head, h.kind.isType = true → R ⟨.typeExpression, none⟩ [h]

theorem Admits.read (hR : Admits R) {b : Branch} (h : ∀ c ∈ b.subtrees, R c.head c.heads)
    (k : Kind) (image : Option String) :
    ∀ c ∈ (b.read (.ofNode k image b.kind)).subtrees, R c.head c.heads := by
  have hwrapped : ∀ {d : Branch}, d.kind.isType = true → (∀ c ∈ d.subtrees, R c.head c.heads) →
      ∀ c ∈ d.wrapped.subtrees, R c.head c.heads := by
    intro d hd hbelow c hc
    rcases List.mem_cons.mp hc with rfl | hc
    · exact hR.wrapped d.head hd
    · rw [subtreesOfAll, subtreesOfAll, List.append_nil] at hc
      exact hbelow c hc
  have hnamed : ∀ c ∈ b.named.subtrees, R c.head c.heads := by
    intro c hc
    rw [List.mem_singleton.mp hc]
    exact hR.named b.image
  cases hr : Reading.ofNode k image b.kind with
  | kept => exact h
  | named => exact hnamed
  | namedAndWrapped => exact hwrapped rfl hnamed
  | wrapped =>
    refine hwrapped ?_ h
    unfold Reading.ofNode at hr
    split at hr
    · split at hr
      · cases hr
      · split at hr
        · next ht => exact ht
        · cases hr
    · split at hr <;> cases hr
    · split at hr <;> cases hr
    · cases hr

mutual

/-- What is known of each node when it has settled its first child holds in the settled tree. -/
theorem Admits.disambiguated (hR : Admits R) : ∀ b : Branch,
    (∀ c ∈ b.subtrees, R c.head (c.head.settle c.heads)) →
    ∀ c ∈ b.disambiguated.subtrees, R c.head c.heads
  | ⟨k, image, span, children⟩, h => by
    have hbelow := hR.rebuiltAll children fun c hc => h c (List.mem_cons_of_mem _ hc)
    have hself := h _ (mem_subtrees_self _)
    have hheads : (Branch.rebuiltAll settleFirst children).map head = children.map head :=
      map_head_rebuiltAll children
    change ∀ c ∈ (settleFirst ⟨k, image, span, Branch.rebuiltAll settleFirst children⟩).subtrees,
      R c.head c.heads
    cases hcs : Branch.rebuiltAll settleFirst children with
    | nil =>
      rw [hcs] at hheads
      intro c hc
      rw [List.mem_singleton.mp hc]
      rw [heads, ← hheads] at hself
      exact hself
    | cons d ds =>
      rw [hcs] at hbelow hheads
      intro c hc
      rcases List.mem_cons.mp hc with rfl | hc
      · rw [heads, ← hheads] at hself
        rw [heads, List.map_cons, head_read]
        exact hself
      · rcases List.mem_append.mp hc with hc | hc
        · exact hR.read (fun e he => hbelow e (List.mem_append_left _ he)) k image c hc
        · exact hbelow c (List.mem_append_right _ hc)

theorem Admits.rebuiltAll (hR : Admits R) : ∀ bs : List Branch,
    (∀ c ∈ subtreesOfAll bs, R c.head (c.head.settle c.heads)) →
    ∀ c ∈ subtreesOfAll (Branch.rebuiltAll settleFirst bs), R c.head c.heads
  | [], _, c, hc => by cases hc
  | b :: bs, h, c, hc => by
    rcases List.mem_append.mp hc with hc | hc
    · exact hR.disambiguated b (fun d hd => h d (List.mem_append_left _ hd)) c hc
    · exact hR.rebuiltAll bs (fun d hd => h d (List.mem_append_right _ hd)) c hc

end

mutual

theorem subtrees_subset {c : Branch} : ∀ {b : Branch}, c ∈ b.subtrees → ∀ d ∈ c.subtrees, d ∈ b.subtrees
  | ⟨_, _, _, children⟩, hc, d, hd => by
    rcases List.mem_cons.mp hc with rfl | hc
    · exact hd
    · exact List.mem_cons_of_mem _ (subtreesOfAll_subset hc d hd)

theorem subtreesOfAll_subset {c : Branch} : ∀ {bs : List Branch}, c ∈ subtreesOfAll bs →
    ∀ d ∈ c.subtrees, d ∈ subtreesOfAll bs
  | b :: bs, hc, d, hd => by
    rcases List.mem_append.mp hc with hc | hc
    · exact List.mem_append_left _ (subtrees_subset hc d hd)
    · exact List.mem_append_right _ (subtreesOfAll_subset hc d hd)

end

theorem mem_subtrees_of_child {b c : Branch} (hc : c ∈ b.children) : c ∈ b.subtrees := by
  obtain ⟨before, after, hsplit⟩ := List.append_of_mem hc
  obtain ⟨k, image, span, children⟩ := b
  dsimp only at hsplit
  rw [subtrees, hsplit, subtreesOfAll_append]
  exact List.mem_cons_of_mem _ (List.mem_append_right _ (List.mem_append_left _ c.mem_subtrees_self))

/-- What holds of a node and all nodes below it holds of those of a child. -/
theorem forall_child {P : Branch → Prop} {b c : Branch} (h : ∀ d ∈ b.subtrees, P d)
    (hc : c ∈ b.children) : ∀ d ∈ c.subtrees, P d :=
  fun d hd => h d (subtrees_subset (mem_subtrees_of_child hc) d hd)

end Branch

namespace Tree

variable {t : Tree} {n : Nat} {b : Branch}

def head (t : Tree) (n : NodeId) : Head := ⟨t.kind n, t.image n⟩

def heads (t : Tree) (n : NodeId) : List Head := (t.children n).map t.head

/-- Past the end of the table there are only rows without a kind of a node. -/
theorem lt_size_of_isNode (h : (t.kind n).isNode = true) : n < t.size := by
  apply Nat.lt_of_not_le
  intro hn
  rw [kind, row, Array.getElem?_eq_none hn] at h
  cases h

theorem map_kind_heads (t : Tree) (n : NodeId) :
    (t.heads n).map Head.kind = (t.children n).map t.kind := by
  rw [heads, List.map_map]
  rfl

theorem exists_rooted (h : n < t.size) : ∃ b ∈ t.root.subtrees, t.Rooted n b := by
  revert n
  apply forall_nodes
  · exact ⟨t.root, t.root.mem_subtrees_self, t.rooted_root⟩
  · rintro n i c ⟨b, hb, hrooted⟩ hc
    obtain ⟨before, d, after, hsplit, _, _, hd, _⟩ := hrooted.child hc
    refine ⟨d, Branch.subtrees_subset hb d (Branch.mem_subtrees_of_child ?_), hd⟩
    rw [hsplit]
    exact List.mem_append_right _ List.mem_cons_self

theorem Rooted.head_eq (h : t.Rooted n b) : t.head n = b.head := by
  rw [head, h.kind_eq, h.image_eq, Branch.head]

theorem Rooted.child_of_split (h : t.Rooted n b) {before after : List Branch} {d : Branch}
    (hsplit : b.children = before ++ d :: after) :
    t.Rooted (n + 1 + Branch.sizeOfAll before) d := by
  have hget : (t.children n)[before.length]? = some (n + 1 + Branch.sizeOfAll before) := by
    rw [h.children_eq, hsplit, Branch.siblingNumbers_append,
      List.getElem?_append_right (Nat.le_of_eq (Branch.length_siblingNumbers _ _)),
      Branch.length_siblingNumbers, Nat.sub_self]
    rfl
  obtain ⟨before', d', after', hsplit', hlength, _, hrooted, _⟩ := h.child hget
  obtain ⟨_, htail⟩ := List.append_inj (hsplit.symm.trans hsplit') hlength.symm
  cases htail
  exact hrooted

theorem Rooted.forall₂_children (h : t.Rooted n b) :
    List.Forall₂ t.Rooted (t.children n) b.children := by
  have hall : ∀ after before : List Branch, b.children = before ++ after →
      List.Forall₂ t.Rooted (Branch.siblingNumbers (n + 1 + Branch.sizeOfAll before) after) after := by
    -- On the children that are left; those before them tell the number of the next one.
    intro after
    induction after with
    | nil => exact fun _ _ => .nil
    | cons d after ih =>
      intro before hsplit
      have hmore := ih (before ++ [d]) (by rw [hsplit, List.append_assoc]; rfl)
      rw [Branch.sizeOfAll_append, ← Nat.add_assoc] at hmore
      exact .cons (h.child_of_split hsplit) hmore
  rw [h.children_eq]
  exact hall b.children [] rfl

/-- What a row says of a node, read off all children of a node. -/
theorem Rooted.map_children {α : Type} {f : NodeId → α} {g : Branch → α} (h : t.Rooted n b)
    (hrow : ∀ m c, t.Rooted m c → f m = g c) : (t.children n).map f = b.children.map g := by
  rw [← List.forall₂_eq_eq_eq, List.forall₂_map_left_iff, List.forall₂_map_right_iff]
  exact h.forall₂_children.imp hrow

theorem Rooted.heads_eq (h : t.Rooted n b) : t.heads n = b.heads :=
  h.map_children fun _ _ hc => hc.head_eq

/-- What holds of all nodes of the tree, seen with their children, holds of all of the table. -/
theorem forall_heads {R : Head → List Head → Prop} (h : ∀ b ∈ t.root.subtrees, R b.head b.heads)
    (hn : n < t.size) : R (t.head n) (t.heads n) := by
  obtain ⟨b, hb, hrooted⟩ := exists_rooted hn
  rw [hrooted.head_eq, hrooted.heads_eq]
  exact h b hb

end Tree

end JavaSyntax
