import JavaSyntax.Proofs.Draft.Nesting
import JavaSyntax.Proofs.Draft.Twins

namespace JavaSyntax

namespace Builder

open Draft

variable {σ : Type} {text : String} {d d' : Draft} {ops : List Operation} {op : Operation} {n : Nat}

/-- The operation, with other numbers for the nodes. -/
def Operation.renamed (name : DraftId → DraftId) : Operation → Operation
  | .create k => .create k
  | .append p c => .append (name p) (name c)
  | .setImage id image => .setImage (name id) image
  | .pushImage id text => .pushImage (name id) text
  | .extend id span => .extend (name id) span
  | .close id => .close (name id)

/-- A construction by a client that counts the nodes it creates. A finalizer may make nodes in between, so
the client remembers which number each of its nodes has in the draft. -/
structure Client (σ : Type) where
  builder : Builder σ
  made : List DraftId

namespace Client

def start (text : String) (f : Finalizer σ) (memory : σ) : Client σ := ⟨.start text f memory, []⟩

/-- The number of a node in the draft. What was never created has a number that no node has. -/
def name (c : Client σ) (id : DraftId) : DraftId := c.made.getD id c.builder.draft.nodes.size

def perform (c : Client σ) (op : Operation) : Except (Failure σ) (Client σ) := do
  let b ← c.builder.perform (op.renamed c.name)
  match op with
  | .create _ => pure ⟨b, c.made ++ [c.builder.draft.nodes.size]⟩
  | _ => pure ⟨b, c.made⟩

def performAll (c : Client σ) (ops : List Operation) : Except (Failure σ) (Client σ) :=
  ops.foldlM perform c

def finish (c : Client σ) (root : DraftId) : Except (Failure σ) Tree := c.builder.finish (c.name root)

end Client

/-- Each node gets its parent, if any, when it is created. `n` nodes were created before. -/
inductive AtOnce : (n : Nat) → List Operation → Prop
  | done (n : Nat) : AtOnce n []
  | root {n : Nat} {k : Kind} {ops : List Operation} (later : AtOnce (n + 1) ops) :
    AtOnce n (.create k :: ops)
  | child {n : Nat} {k : Kind} {p : DraftId} {ops : List Operation} (later : AtOnce (n + 1) ops) :
    AtOnce n (.create k :: .append p n :: ops)
  | other {n : Nat} {op : Operation} {ops : List Operation} (creates : ∀ k, op ≠ .create k)
    (appends : ∀ p c, op ≠ .append p c) (later : AtOnce n ops) : AtOnce n (op :: ops)

/-- Each operation is as `P` says in the draft in which it is performed. -/
def Each (P : Draft → Operation → Prop) (b : Builder σ) : List Operation → Prop
  | [] => True
  | op :: ops => P b.draft op ∧ ∀ b', b.perform op = .ok b' → b'.Each P ops

section Each

variable {P : Draft → Operation → Prop} {b b' : Builder σ}

theorem Each.cons (h : P b.draft op) (hop : b.perform op = .ok b') (later : b'.Each P ops) :
    b.Each P (op :: ops) := by
  refine ⟨h, fun b₁ hb₁ => ?_⟩
  cases hop.symm.trans hb₁
  exact later

theorem Each.of_forall (h : ∀ op ∈ ops, ∀ d, P d op) : b.Each P ops := by
  induction ops generalizing b with
  | nil => trivial
  | cons op ops ih =>
    exact ⟨h op List.mem_cons_self _, fun b' _ => ih fun op hop => h op (List.mem_cons_of_mem _ hop)⟩

end Each

/-- A token is reported in the innermost open node. -/
def Inward (d : Draft) (op : Operation) : Prop := ∀ id span, op = .extend id span → d.Innermost id

/-- A node whose first child is to be settled is not closed before it covers something. -/
def Timely (d : Draft) (op : Operation) : Prop := ∀ id, op = .close id → ¬ d.Premature id

/-- Only creating a node adds one. -/
theorem Effect.size_eq {m m' : σ} (h : Effect text .inert op d m d' m') (hop : ∀ k, op ≠ .create k) :
    d'.nodes.size = d.nodes.size := by
  cases h with
  | create => exact absurd rfl (hop _)
  | append happ =>
    obtain ⟨-, -, -, rfl⟩ := attach_eq_ok (Orderly.opened_of_append happ).2
    simp
  | setImage hset =>
    obtain ⟨_, _, hset⟩ := bind_eq_ok.mp hset
    cases hset
    exact size_update ..
  | pushImage hpush =>
    obtain ⟨_, _, hpush⟩ := bind_eq_ok.mp hpush
    cases hpush
    exact size_update ..
  | extend _ hext => exact (respanned_extend hext).size
  | again => rfl
  | close _ _ hstart hrun =>
    cases hrun
    obtain ⟨e, he, hnodes, -⟩ := startClosing_eq_ok hstart
    have hsize := he.size
    rw [hnodes, size_update] at hsize
    exact (size_update ..).trans hsize

theorem size_create (d : Draft) (k : Kind) : (d.create k).2.nodes.size = d.nodes.size + 1 :=
  Array.size_push ..

/-- What such a client builds without a finalizer is in good order, and if each token was reported in the
innermost open node, all nodes fit into their parents. -/
theorem AtOnce.orderly (hops : AtOnce n ops) {b b' : Builder σ} (hb : b.finalizer = .inert)
    (hn : b.draft.nodes.size = n) (hd : b.draft.Orderly) (hrun : b.performAll ops = .ok b') :
    b'.draft.Orderly ∧ (b.Each Inward ops → b.draft.Nests → b'.draft.Nests) := by
  induction hops generalizing b with
  | done =>
    cases hrun
    exact ⟨hd, fun _ h => h⟩
  | @root n k ops _ ih =>
    obtain ⟨text, f, d, m⟩ := b
    cases hb
    obtain ⟨b₁, hb₁, hrun⟩ := performAll_cons.mp hrun
    obtain ⟨d₁, m₁, ⟨⟩, rfl⟩ := perform_iff.mp hb₁
    obtain ⟨hd', hnests⟩ := ih rfl ((size_create d k).trans (congrArg (· + 1) hn)) (hd.create k) hrun
    exact ⟨hd', fun hin h => hnests (hin.2 _ hb₁) (h.create hd k)⟩
  | @child n k p ops _ ih =>
    obtain ⟨text, f, d, m⟩ := b
    cases hb
    obtain ⟨b₁, hb₁, hrun⟩ := performAll_cons.mp hrun
    obtain ⟨d₁, m₁, ⟨⟩, rfl⟩ := perform_iff.mp hb₁
    obtain ⟨b₂, hb₂, hrun⟩ := performAll_cons.mp hrun
    obtain ⟨d₂, m₂, heffect, rfl⟩ := perform_iff.mp hb₂
    -- the node is new, so it covers nothing and is not around anything
    have hsize := (size_create d k).trans (congrArg (· + 1) hn)
    have hnew : (d.create k).2.spanOf n = none := by
      rw [spanOf, nodes_create, if_pos hn.symm]
      rfl
    have hd₂ := heffect.orderly (hd.create k) fun q c he => by cases he; exact hsize.symm
    obtain ⟨hd', hnests⟩ := ih rfl ((heffect.size_eq fun k he => by cases he).trans hsize) hd₂ hrun
    refine ⟨hd', fun hin h => hnests ((hin.2 _ hb₁).2 _ hb₂) ?_⟩
    exact heffect.nests (hd.create k) (h.create hd k) (fun q c he => by cases he; exact hnew)
      fun x span he => by cases he
  | @other n op ops creates appends _ ih =>
    obtain ⟨text, f, d, m⟩ := b
    cases hb
    obtain ⟨b₁, hb₁, hrun⟩ := performAll_cons.mp hrun
    obtain ⟨d₁, m₁, heffect, rfl⟩ := perform_iff.mp hb₁
    have hd₁ := heffect.orderly hd fun p c he => absurd he (appends p c)
    obtain ⟨hd', hnests⟩ := ih rfl ((heffect.size_eq creates).trans hn) hd₁ hrun
    refine ⟨hd', fun hin h => hnests (hin.2 _ hb₁) ?_⟩
    exact heffect.nests hd h (fun p c he => absurd he (appends p c)) hin.1

end Builder

end JavaSyntax
