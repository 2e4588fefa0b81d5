import Mathlib.Data.List.Nodup
import JavaSyntax.Proofs.Grammar.Proper

namespace JavaSyntax

/-- A change of tokens that leaves their kinds as they are. -/
structure KeepsKinds (f : Token → Token) : Prop where
  kind : ∀ t, (f t).kind = t.kind

theorem keepsKinds_id : KeepsKinds id := ⟨fun _ => rfl⟩

/-- A change of tokens that leaves their kinds and texts as they are. -/
structure Moves (f : Token → Token) : Prop extends KeepsKinds f where
  text : ∀ t, (f t).text = t.text

/-- The token that stands in `us` where `t` stands in `ts`. -/
def counterpart (ts us : List Token) (t : Token) : Token := (us[ts.idxOf t]?).getD t

section

variable {ts us : List Token}

/-- What the tokens at the same place have in common, each has in common with its counterpart. -/
theorem counterpart_eq {α : Type} {g : Token → α} (h : ts.map g = us.map g) (t : Token) :
    g (counterpart ts us t) = g t := by
  rw [counterpart]
  cases hu : us[ts.idxOf t]? with
  | none => rfl
  | some u =>
    have hsame : (ts[ts.idxOf t]?).map g = (us[ts.idxOf t]?).map g := by
      rw [← List.getElem?_map, ← List.getElem?_map, h]
    have hlength : ts.length = us.length := by
      rw [← List.length_map g, h, List.length_map]
    have hlt : ts.idxOf t < ts.length := hlength ▸ (List.getElem?_eq_some_iff.mp hu).1
    rw [hu, List.getElem?_eq_getElem hlt, List.getElem_idxOf hlt] at hsame
    exact (Option.some.inj hsame).symm

theorem map_counterpart (hn : ts.Nodup) (h : ts.length = us.length) :
    ts.map (counterpart ts us) = us := by
  apply List.ext_getElem (by rw [List.length_map, h])
  intro i hi hu
  rw [List.length_map] at hi
  rw [List.getElem_map, counterpart, hn.idxOf_getElem i hi, List.getElem?_eq_getElem hu,
    Option.getD_some]

end

/-- Tokens of these kinds, each at a place of its own. -/
def tokensOf (ks : List Kind) : List Token := ks.zipIdx.map fun k => ⟨k.1, "", k.2⟩

theorem kinds_tokensOf (ks : List Kind) : (tokensOf ks).map Token.kind = ks := by
  rw [tokensOf, List.map_map]
  exact List.zipIdx_map_fst 0 ks

theorem nodup_tokensOf (ks : List Kind) : (tokensOf ks).Nodup := by
  have hstarts : (tokensOf ks).map Token.start = List.range' 0 ks.length := by
    rw [tokensOf, List.map_map]
    exact List.zipIdx_map_snd 0 ks
  refine .of_map Token.start ?_
  rw [hstarts]
  exact List.nodup_range'

/-- All tokens come from others that have nothing but their kinds. -/
theorem exists_map_tokensOf (ts : List Token) :
    ∃ f, KeepsKinds f ∧ ts = (tokensOf (ts.map Token.kind)).map f := by
  have hkinds := kinds_tokensOf (ts.map Token.kind)
  have hlength : (tokensOf (ts.map Token.kind)).length = ts.length := by
    rw [← List.length_map Token.kind, hkinds, List.length_map]
  exact ⟨counterpart (tokensOf (ts.map Token.kind)) ts, ⟨counterpart_eq hkinds⟩,
    (map_counterpart (nodup_tokensOf _) hlength).symm⟩

namespace Piece

mutual

/-- The piece with all its tokens moved. -/
def moved (f : Token → Token) : Piece → Piece
  | .token t inImage => .token (f t) inImage
  | .node k parts => .node k (movedAll f parts)

def movedAll (f : Token → Token) : List Piece → List Piece
  | [] => []
  | p :: ps => p.moved f :: movedAll f ps

end

theorem movedAll_append (f : Token → Token) (ps qs : List Piece) :
    movedAll f (ps ++ qs) = movedAll f ps ++ movedAll f qs := by
  induction ps with
  | nil => rfl
  | cons p ps ih => rw [List.cons_append, movedAll, movedAll, ih, List.cons_append]

theorem isEmpty_movedAll (f : Token → Token) (ps : List Piece) :
    (movedAll f ps).isEmpty = ps.isEmpty := by
  cases ps <;> rfl

mutual

theorem tokens_moved (f : Token → Token) : ∀ p : Piece, (p.moved f).tokens = p.tokens.map f
  | .token _ _ => rfl
  | .node _ parts => tokensOfAll_movedAll f parts

theorem tokensOfAll_movedAll (f : Token → Token) : ∀ ps : List Piece,
    tokensOfAll (movedAll f ps) = (tokensOfAll ps).map f
  | [] => rfl
  | p :: ps => by
    rw [movedAll, tokensOfAll, tokensOfAll, List.map_append, tokens_moved f p,
      tokensOfAll_movedAll f ps]

end

mutual

/-- What stays where it is when its tokens do. -/
theorem moved_eq_self {f : Token → Token} : ∀ {p : Piece}, (∀ t ∈ p.tokens, f t = t) → p.moved f = p
  | .token _ i, h => congrArg (Piece.token · i) (h _ List.mem_cons_self)
  | .node k _, h => congrArg (Piece.node k) (movedAll_eq_self h)

theorem movedAll_eq_self {f : Token → Token} : ∀ {ps : List Piece}, (∀ t ∈ tokensOfAll ps, f t = t) →
    movedAll f ps = ps
  | [], _ => rfl
  | _ :: _, h => by
    obtain ⟨hp, hps⟩ := List.forall_mem_append.mp h
    rw [movedAll, moved_eq_self hp, movedAll_eq_self hps]

end

theorem movedAll_id (ps : List Piece) : movedAll id ps = ps := movedAll_eq_self fun _ _ => rfl

end Piece

def Problem.moved (f : Token → Token) (p : Problem) : Problem := { p with found := p.found.map f }

end JavaSyntax
