import JavaSyntax.Slots
import Mathlib.Data.List.Basic

namespace JavaSyntax

namespace Slots

variable {s : Slots} {n m : NodeId} {ty : TypeInfo}

@[simp] theorem typeOf_empty (m : NodeId) : Slots.empty.typeOf m = none := rfl

@[simp] theorem typeOf_put_self (s : Slots) (n : NodeId) (ty : TypeInfo) :
    (s.put n ty).typeOf n = some ty :=
  if_pos rfl

theorem typeOf_put_other (h : m ≠ n) : (s.put n ty).typeOf m = s.typeOf m := if_neg h

/-- Into an empty slot. -/
theorem typeOf_put (h : s.typeOf n = none) (m : NodeId) :
    (s.put n ty).typeOf m = (s.typeOf m).or (if n = m then some ty else none) := by
  by_cases hm : n = m
  · subst hm
    rw [typeOf_put_self, h, if_pos rfl, Option.none_or]
  · rw [typeOf_put_other (Ne.symm hm), if_neg hm, Option.or_none]

end Slots

/-- A request about the type of a node. -/
inductive TypeCall where
  | info (n : NodeId) (resolve : NodeId → TypeInfo)
  | cached (n : NodeId)
  | store (n : NodeId) (ty : TypeInfo)

namespace Tree

variable {t : Tree} {s : Slots} {n m : NodeId} {ty : TypeInfo} {resolve : NodeId → TypeInfo}

/-- The slots after a call. -/
def slotsAfter (t : Tree) (s : Slots) : TypeCall → Slots
  | .info n resolve => (t.typeInfo resolve s n).slots
  | .cached _ => s
  | .store n ty => (t.setType s n ty).2

/-- The node a call has a type computed for, if it has. -/
def computedBy (t : Tree) (s : Slots) : TypeCall → Option NodeId
  | .info n resolve => (t.typeInfo resolve s n).computed
  | .cached _ => none
  | .store _ _ => none

/-- The slots after some calls, in turn. -/
def slotsAfterAll (t : Tree) (s : Slots) (calls : List TypeCall) : Slots :=
  calls.foldl t.slotsAfter s

/-- The nodes some calls have types computed for, in turn. -/
def computedByAll (t : Tree) : Slots → List TypeCall → List NodeId
  | _, [] => []
  | s, call :: calls => (t.computedBy s call).toList ++ computedByAll t (t.slotsAfter s call) calls

/-- The slot a call may fill. -/
def slotOf (t : Tree) : TypeCall → Option NodeId
  | .info n _ => some (t.typeOwner n)
  | .cached _ => none
  | .store n _ => if t.isParameter n then none else some n

/-- The type a call has for the slot of `m`, should that be empty. -/
def offer (t : Tree) (m : NodeId) (call : TypeCall) : Option TypeInfo :=
  if t.slotOf call = some m then
    match call with
    | .info _ resolve => some (resolve m)
    | .cached _ => none
    | .store _ ty => some ty
  else none

theorem offer_other {call : TypeCall} (h : t.slotOf call ≠ some m) : t.offer m call = none :=
  if_neg h

theorem offer_of_none {call : TypeCall} (h : t.slotOf call = none) : t.offer m call = none :=
  offer_other (by rw [h]; exact nofun)

theorem typeInfo_of_filled (h : s.typeOf (t.typeOwner n) = some ty) :
    t.typeInfo resolve s n = ⟨ty, none, s⟩ := by
  rw [typeInfo, h]

theorem typeInfo_of_empty (h : s.typeOf (t.typeOwner n) = none) : t.typeInfo resolve s n =
    ⟨resolve (t.typeOwner n), some (t.typeOwner n),
      s.put (t.typeOwner n) (resolve (t.typeOwner n))⟩ := by
  rw [typeInfo, h]

theorem setType_parameter (h : t.isParameter n = true) : t.setType s n ty = (false, s) := by
  rw [setType, h, Bool.true_or, if_pos rfl]

theorem setType_of_filled {old : TypeInfo} (h : s.typeOf n = some old) :
    t.setType s n ty = (false, s) := by
  rw [setType, h, Option.isSome_some, Bool.or_true, if_pos rfl]

theorem setType_of_empty (hn : t.isParameter n = false) (h : s.typeOf n = none) :
    t.setType s n ty = (true, s.put n ty) := by
  rw [setType, hn, h, Option.isSome_none, Bool.or_false, if_neg Bool.false_ne_true]

/-- A slot holds what it held, or else what the call offers it. -/
theorem typeOf_slotsAfter (t : Tree) (s : Slots) (call : TypeCall) (m : NodeId) :
    (t.slotsAfter s call).typeOf m = (s.typeOf m).or (t.offer m call) := by
  cases call with
  | info n resolve =>
    simp only [slotsAfter, offer, slotOf, Option.some.injEq]
    cases hslot : s.typeOf (t.typeOwner n) with
    | none =>
      rw [typeInfo_of_empty hslot, Slots.typeOf_put hslot]
      split
      · next hm => rw [hm]
      · rfl
    | some ty =>
      rw [typeInfo_of_filled hslot]
      split
      · next hm => rw [← hm, hslot, Option.some_or]
      · rw [Option.or_none]
  | cached n =>
    show s.typeOf m = _
    rw [offer_of_none rfl, Option.or_none]
  | store n ty =>
    cases hn : t.isParameter n with
    | true =>
      have hnone : t.slotOf (.store n ty) = none := if_pos hn
      rw [slotsAfter, setType_parameter hn, offer_of_none hnone, Option.or_none]
    | false =>
      have hsome : t.slotOf (.store n ty) = some n := if_neg (hn ▸ Bool.false_ne_true)
      simp only [slotsAfter, offer, hsome, Option.some.injEq]
      cases hslot : s.typeOf n with
      | none => rw [setType_of_empty hn hslot, Slots.typeOf_put hslot]
      | some old =>
        rw [setType_of_filled hslot]
        split
        · next hm => rw [← hm, hslot, Option.some_or]
        · rw [Option.or_none]

/-- A slot holds the first type that the calls of a run offer it. -/
theorem typeOf_slotsAfterAll (t : Tree) (s : Slots) (calls : List TypeCall) (m : NodeId) :
    (t.slotsAfterAll s calls).typeOf m = (s.typeOf m).or (calls.findSome? (t.offer m)) := by
  induction calls generalizing s with
  | nil => rw [slotsAfterAll, List.foldl_nil, List.findSome?_nil, Option.or_none]
  | cons call calls ih =>
    rw [slotsAfterAll, List.foldl_cons, ← slotsAfterAll, ih, typeOf_slotsAfter, Option.or_assoc,
      List.findSome?_cons]
    cases t.offer m call <;> simp

theorem slotsAfterAll_append (t : Tree) (s : Slots) (calls more : List TypeCall) :
    t.slotsAfterAll s (calls ++ more) = t.slotsAfterAll (t.slotsAfterAll s calls) more :=
  List.foldl_append

/-- A type is computed for an empty slot, which it fills. -/
theorem computedBy_eq_some {call : TypeCall} (h : t.computedBy s call = some m) :
    s.typeOf m = none ∧ ∃ ty, (t.slotsAfter s call).typeOf m = some ty := by
  cases call with
  | info n resolve =>
    rw [computedBy] at h
    rw [slotsAfter]
    cases hslot : s.typeOf (t.typeOwner n) with
    | none =>
      rw [typeInfo_of_empty hslot] at h ⊢
      cases h
      exact ⟨hslot, _, Slots.typeOf_put_self ..⟩
    | some ty =>
      rw [typeInfo_of_filled hslot] at h
      cases h
  | cached n => cases h
  | store n ty => cases h

/-- Types are computed for different nodes, whose slots were empty at first. -/
theorem computedByAll_distinct (t : Tree) (s : Slots) (calls : List TypeCall) :
    (t.computedByAll s calls).Nodup ∧ ∀ m ∈ t.computedByAll s calls, s.typeOf m = none := by
  induction calls generalizing s with
  | nil => exact ⟨List.nodup_nil, fun m hm => nomatch hm⟩
  | cons call calls ih =>
    obtain ⟨hnodup, hempty⟩ := ih (t.slotsAfter s call)
    have hbefore : ∀ m ∈ t.computedByAll (t.slotsAfter s call) calls, s.typeOf m = none := by
      intro m hm
      have hm := hempty m hm
      rw [typeOf_slotsAfter, Option.or_eq_none_iff] at hm
      exact hm.1
    rw [computedByAll]
    cases hcomputed : t.computedBy s call with
    | none => exact ⟨hnodup, hbefore⟩
    | some n =>
      obtain ⟨hn, ty, hfilled⟩ := computedBy_eq_some hcomputed
      refine ⟨List.nodup_cons.mpr ⟨fun hmem => ?_, hnodup⟩, fun m hm => ?_⟩
      · rw [hempty n hmem] at hfilled
        cases hfilled
      · rcases List.mem_cons.mp hm with rfl | hm
        · exact hn
        · exact hbefore m hm

section Parameter

variable {p c : NodeId}

theorem typeOwner_parameter (hp : t.isParameter p = true)
    (hc : (t.children p).find? (t.kind · = .variableDeclaratorId) = some c) :
    t.typeOwner p = c := by
  rw [typeOwner, if_pos hp, hc, Option.getD_some]

theorem kind_variable (hc : (t.children p).find? (t.kind · = .variableDeclaratorId) = some c) :
    t.kind c = .variableDeclaratorId := by
  have := List.find?_some hc
  exact of_decide_eq_true this

/-- The variable of a parameter is no parameter. -/
theorem typeOwner_variable
    (hc : (t.children p).find? (t.kind · = .variableDeclaratorId) = some c) : t.typeOwner c = c := by
  rw [typeOwner, isParameter, kind_variable hc]
  rfl

/-- No call fills the slot of a parameter that declares a variable. -/
theorem slotOf_ne_parameter (hp : t.isParameter p = true)
    (hc : (t.children p).find? (t.kind · = .variableDeclaratorId) = some c) (call : TypeCall) :
    t.slotOf call ≠ some p := by
  have hkind : ∀ {n c : NodeId},
      (t.children n).find? (t.kind · = .variableDeclaratorId) = some c → c ≠ p := by
    rintro n c hfound rfl
    rw [isParameter, kind_variable hfound] at hp
    cases hp
  cases call with
  | info n resolve =>
    intro h
    have howner := Option.some.inj h
    rw [typeOwner] at howner
    split at howner
    · cases hfound : (t.children n).find? (t.kind · = .variableDeclaratorId) with
      | none =>
        rw [hfound, Option.getD_none] at howner
        rw [howner, hc] at hfound
        cases hfound
      | some d =>
        rw [hfound, Option.getD_some] at howner
        exact hkind hfound howner
    · next hn => exact hn (howner ▸ hp)
  | cached n => exact nofun
  | store n ty =>
    rw [slotOf]
    split
    · exact nofun
    · next hn =>
      rintro h
      cases h
      exact hn hp

end Parameter

/-- What holds of the slots for types after every run of calls. -/
structure TypesOnce (t : Tree) : Prop where
  kept : ∀ calls more m ty, (t.slotsAfterAll .empty calls).typeOf m = some ty →
    (t.slotsAfterAll .empty (calls ++ more)).typeOf m = some ty
  /-- A slot holds what the first call had for it that had anything, `unknown` or not. -/
  first : ∀ calls m, (t.slotsAfterAll .empty calls).typeOf m = calls.findSome? (t.offer m)
  /-- The type of a node is in its owner's slot, and was there unless it is computed now, for the owner. -/
  info : ∀ calls n resolve,
    let s := t.slotsAfterAll .empty calls
    let r := t.typeInfo resolve s n
    r.slots.typeOf (t.typeOwner n) = some r.type ∧
      ((∃ ty, s.typeOf (t.typeOwner n) = some ty ∧ r.type = ty ∧ r.computed = none ∧ r.slots = s) ∨
        (s.typeOf (t.typeOwner n) = none ∧ r.type = resolve (t.typeOwner n) ∧
          r.computed = some (t.typeOwner n)))
  /-- Types are computed for a slot once at most. -/
  once : ∀ calls, (t.computedByAll .empty calls).Nodup
  cached : ∀ calls n,
    t.cachedType (t.slotsAfterAll .empty calls) n =
      (t.slotsAfterAll .empty calls).typeOf (t.typeOwner n)
  store : ∀ calls n ty,
    let s := t.slotsAfterAll .empty calls
    ((t.setType s n ty).1 = true ↔ t.isParameter n = false ∧ s.typeOf n = none) ∧
      ((t.setType s n ty).1 = true → (t.setType s n ty).2.typeOf n = some ty) ∧
      ((t.setType s n ty).1 = false → (t.setType s n ty).2 = s)
  others : ∀ calls call m, t.slotOf call ≠ some m →
    (t.slotsAfter (t.slotsAfterAll .empty calls) call).typeOf m =
      (t.slotsAfterAll .empty calls).typeOf m
  /-- A parameter answers as the variable it declares, and holds nothing itself. -/
  parameter : ∀ p c, t.isParameter p = true →
    (t.children p).find? (t.kind · = .variableDeclaratorId) = some c → ∀ calls,
    let s := t.slotsAfterAll .empty calls
    (∀ resolve, t.typeInfo resolve s p = t.typeInfo resolve s c) ∧
      t.cachedType s p = t.cachedType s c ∧ s.typeOf p = none

theorem typesOnce (t : Tree) : t.TypesOnce := by
  refine ⟨fun calls more m ty h => ?_, fun calls m => ?_, fun calls n resolve => ?_, fun calls =>
    (computedByAll_distinct t .empty calls).1, fun calls n => rfl, fun calls n ty => ?_,
    fun calls call m h => ?_, fun p c hp hc calls => ⟨fun resolve => ?_, ?_, ?_⟩⟩
  · rw [slotsAfterAll_append, typeOf_slotsAfterAll, h, Option.some_or]
  · rw [typeOf_slotsAfterAll, Slots.typeOf_empty, Option.none_or]
  · intro s r
    cases hslot : s.typeOf (t.typeOwner n) with
    | none =>
      have hr : r = _ := typeInfo_of_empty hslot
      rw [hr]
      exact ⟨Slots.typeOf_put_self .., .inr ⟨rfl, rfl, rfl⟩⟩
    | some ty =>
      have hr : r = _ := typeInfo_of_filled hslot
      rw [hr]
      exact ⟨hslot, .inl ⟨ty, rfl, rfl, rfl, rfl⟩⟩
  · intro s
    cases hn : t.isParameter n with
    | true =>
      rw [setType_parameter hn]
      simp
    | false =>
      cases hslot : s.typeOf n with
      | none =>
        rw [setType_of_empty hn hslot]
        simp
      | some old =>
        rw [setType_of_filled hslot]
        simp
  · rw [typeOf_slotsAfter, offer_other h, Option.or_none]
  · rw [typeInfo, typeInfo, typeOwner_parameter hp hc, typeOwner_variable hc]
  · rw [cachedType, cachedType, typeOwner_parameter hp hc, typeOwner_variable hc]
  · rw [typeOf_slotsAfterAll, Slots.typeOf_empty, Option.none_or, List.findSome?_eq_none_iff]
    exact fun call _ => if_neg (slotOf_ne_parameter hp hc call)

end Tree

end JavaSyntax
