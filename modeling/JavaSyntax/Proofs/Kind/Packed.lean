import JavaSyntax.KindSet
import Mathlib.Data.List.Basic

namespace JavaSyntax

theorem Kind.number_lt (k : Kind) : k.number < 128 := by
  cases k <;> decide

theorem Kind.number_inj {k l : Kind} (h : k.number = l.number) : k = l := by
  have hat : ∀ k : Kind, Kind.all[k.number]? = some k := by
    intro k
    cases k <;> rfl
  exact Option.some.inj ((hat k).symm.trans ((congrArg (Kind.all[·]?) h).trans (hat l)))

namespace KindSet

/-- The bit at a place in the words. -/
def bit (s : KindSet) (slot : Fin 2) (i : Nat) : Bool := (s.word slot).toBitVec.getLsbD i

/-- The word of a kind. Two words are enough for all of them. -/
def slot (k : Kind) : Fin 2 :=
  ⟨k.number / 64, by
    have := k.number_lt
    omega⟩

/-- The place of a kind inside its word. -/
def offset (k : Kind) : Nat := k.number % 64

theorem locate?_eq (k : Kind) : locate? k = some (slot k, mask k) := dif_pos (slot k).isLt

/-- No two kinds share a bit. -/
theorem eq_of_slot_of_offset {k l : Kind} (hs : slot k = slot l) (ho : offset k = offset l) :
    k = l := by
  apply Kind.number_inj
  have hdiv : k.number / 64 = l.number / 64 := congrArg Fin.val hs
  unfold offset at ho
  omega

theorem getLsbD_mask (k : Kind) (i : Nat) : (mask k).toBitVec.getLsbD i = decide (i = offset k) := by
  have hk : offset k < 64 := Nat.mod_lt _ (by decide)
  have hshift : ((offset k).toUInt64.toBitVec % 64).toNat = offset k := by
    change offset k % 2 ^ 64 % 64 = offset k
    omega
  have hmask : (mask k).toBitVec = 1#64 <<< offset k := by
    change ((1 : UInt64) <<< (offset k).toUInt64).toBitVec = _
    rw [UInt64.toBitVec_shiftLeft, BitVec.shiftLeft_eq', hshift]
    rfl
  rw [hmask, BitVec.getLsbD_shiftLeft, BitVec.getLsbD_one]
  grind

/-- A word and a mask have a bit in common when the word has that of the mask. -/
theorem and_mask_bne_zero (w : UInt64) (k : Kind) :
    (w &&& mask k != 0) = w.toBitVec.getLsbD (offset k) := by
  have hbit (i : Nat) : (w &&& mask k).toBitVec.getLsbD i =
      (w.toBitVec.getLsbD i && decide (i = offset k)) := by
    rw [UInt64.toBitVec_and, BitVec.getLsbD_and, getLsbD_mask]
  cases hw : w.toBitVec.getLsbD (offset k) with
  | true =>
    rw [bne_iff_ne]
    intro hzero
    have hset := hbit (offset k)
    rw [hzero, hw] at hset
    simp at hset
  | false =>
    rw [bne_eq_false_iff_eq, UInt64.eq_iff_toBitVec_eq]
    apply BitVec.eq_of_getLsbD_eq
    intro i _
    rw [hbit]
    by_cases hi : i = offset k
    · rw [hi, hw]
      simp
    · simp [hi]

theorem contains?_eq (s : KindSet) (k : Kind) :
    s.contains? k = some (s.bit (slot k) (offset k)) := by
  rw [contains?, locate?_eq]
  exact congrArg some (and_mask_bne_zero _ k)

theorem word_setWord (s : KindSet) (w : UInt64) :
    ∀ i j : Fin 2, (s.setWord i w).word j = if j = i then w else s.word j
  | 0, 0 => rfl
  | 0, 1 => rfl
  | 1, 0 => rfl
  | 1, 1 => rfl

theorem word_union (s t : KindSet) : ∀ i : Fin 2, (s.union t).word i = s.word i ||| t.word i
  | 0 => rfl
  | 1 => rfl

theorem word_empty : ∀ i : Fin 2, empty.word i = 0
  | 0 => rfl
  | 1 => rfl

/-- The words have no bits but those below their width. -/
theorem eq_of_bit_eq {s t : KindSet} (h : ∀ slot, ∀ i < 64, s.bit slot i = t.bit slot i) : s = t := by
  have hword (slot : Fin 2) : s.word slot = t.word slot := by
    rw [UInt64.eq_iff_toBitVec_eq]
    exact BitVec.eq_of_getLsbD_eq (h slot)
  obtain ⟨low, high⟩ := s
  obtain ⟨low', high'⟩ := t
  exact congrArg₂ mk (hword 0) (hword 1)

/-- The bits that are set are those of the kinds in a list. -/
def Packs (s : KindSet) (ks : List Kind) : Prop :=
  ∀ i j, s.bit i j = true ↔ ∃ k ∈ ks, slot k = i ∧ offset k = j

theorem packs_empty : Packs empty [] := by
  intro i j
  simp [bit, word_empty]

theorem Packs.insert? {s : KindSet} {ks : List Kind} (h : Packs s ks) (k : Kind) :
    ∃ t, s.insert? k = some t ∧ Packs t (ks ++ [k]) := by
  refine ⟨s.setWord (slot k) (s.word (slot k) ||| mask k), ?_, ?_⟩
  · rw [KindSet.insert?, locate?_eq, Option.map_some]
  · intro i j
    have hij := h i j
    rw [bit] at hij ⊢
    rw [word_setWord]
    by_cases hi : i = slot k
    · subst hi
      rw [if_pos rfl, UInt64.toBitVec_or, BitVec.getLsbD_or, getLsbD_mask, Bool.or_eq_true, hij]
      grind
    · rw [if_neg hi, hij]
      grind

theorem exists_foldlM_insert? (ls : List Kind) {s : KindSet} {ks : List Kind} (h : Packs s ks) :
    ∃ t, ls.foldlM KindSet.insert? s = some t ∧ Packs t (ks ++ ls) := by
  induction ls generalizing s ks with
  | nil => exact ⟨s, rfl, by simpa using h⟩
  | cons l ls ih =>
    obtain ⟨t, ht, hl⟩ := h.insert? l
    obtain ⟨u, hu, hls⟩ := ih hl
    refine ⟨u, ?_, by simpa using hls⟩
    rw [List.foldlM_cons, ht]
    exact hu

theorem ofList?_eq (ks : List Kind) : ofList? ks = some (ofList ks) := by
  obtain ⟨s, hs, _⟩ := exists_foldlM_insert? ks packs_empty
  rw [ofList, ofList?, hs, Option.getD_some]

theorem packs_ofList (ks : List Kind) : Packs (ofList ks) ks := by
  obtain ⟨s, hs, hp⟩ := exists_foldlM_insert? ks packs_empty
  rw [ofList, ofList?, hs]
  exact hp

theorem Packs.union {s t : KindSet} {ks ls : List Kind} (hs : Packs s ks) (ht : Packs t ls) :
    Packs (s.union t) (ks ++ ls) := by
  intro i j
  have hsij := hs i j
  have htij := ht i j
  rw [bit] at hsij htij ⊢
  rw [word_union, UInt64.toBitVec_or, BitVec.getLsbD_or, Bool.or_eq_true, hsij, htij]
  grind

theorem Packs.contains_iff {s : KindSet} {ks : List Kind} (h : Packs s ks) (k : Kind) :
    s.contains k = true ↔ k ∈ ks := by
  rw [contains, contains?_eq, Option.getD_some, h]
  constructor
  · rintro ⟨l, hl, hs, ho⟩
    exact eq_of_slot_of_offset hs ho ▸ hl
  · exact fun hk => ⟨k, hk, rfl, rfl⟩

/-- Sets of the same kinds have the same words. -/
theorem Packs.eq_iff {s t : KindSet} {ks ls : List Kind} (hs : Packs s ks) (ht : Packs t ls) :
    s = t ↔ ∀ k, s.contains k = t.contains k := by
  refine ⟨fun h k => congrArg (contains · k) h, ?_⟩
  intro h
  have hmem (k : Kind) : k ∈ ks ↔ k ∈ ls := by
    rw [← hs.contains_iff, ← ht.contains_iff, h k]
  apply eq_of_bit_eq
  intro i j _
  rw [Bool.eq_iff_iff, hs, ht]
  simp only [hmem]

/-- A way to build a set. -/
inductive Construction where
  | ofList (kinds : List Kind)
  | union (left right : Construction)

namespace Construction

def set : Construction → KindSet
  | .ofList ks => KindSet.ofList ks
  | .union a b => a.set.union b.set

def kinds : Construction → List Kind
  | .ofList ks => ks
  | .union a b => a.kinds ++ b.kinds

theorem packs_set (c : Construction) : Packs c.set c.kinds := by
  induction c with
  | ofList ks => exact packs_ofList ks
  | union a b iha ihb => exact iha.union ihb

end Construction

/-- Packed sets are finite sets of kinds: every kind has a place in the words, so that neither the
construction of a set nor a look at it ever stops, a union has the members of both sides, and sets that
were built in any way are equal exactly when they have the same members. -/
theorem refines_sets (ks ls : List Kind) (k : Kind) (s : KindSet) (a b : Construction) :
    (locate? k).isSome = true ∧
    ofList? ks = some (ofList ks) ∧
    s.contains? k = some (s.contains k) ∧
    (((ofList ks).union (ofList ls)).contains k = true ↔ k ∈ ks ∨ k ∈ ls) ∧
    (a.set.contains k = true ↔ k ∈ a.kinds) ∧
    (a.set = b.set ↔ ∀ k, a.set.contains k = b.set.contains k) := by
  refine ⟨?_, ofList?_eq ks, ?_, ?_, a.packs_set.contains_iff k, a.packs_set.eq_iff b.packs_set⟩
  · rw [locate?_eq, Option.isSome_some]
  · rw [contains, contains?_eq, Option.getD_some]
  · rw [((packs_ofList ks).union (packs_ofList ls)).contains_iff, List.mem_append]

end KindSet

end JavaSyntax
