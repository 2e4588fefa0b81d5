import JavaSyntax.Proofs.Draft.Exchange

namespace JavaSyntax

namespace Sprout

def named (s : Sprout) : Sprout := ⟨.classType, s.image, some (s.span.getD default), []⟩

def wrapped (s : Sprout) : Sprout := ⟨.typeExpression, none, some (s.span.getD default), [s]⟩

def read (s : Sprout) : Reading → Sprout
  | .kept => s
  | .wrapped => s.wrapped
  | .named => s.named
  | .namedAndWrapped => s.named.wrapped

/-- Settles the first child. -/
def disambiguate (s : Sprout) : Sprout :=
  match s.children with
  | [] => s
  | c :: cs => { s with children := c.read (.ofNode s.kind s.image c.kind) :: cs }

end Sprout

namespace Draft

variable {d : Draft} {c : Sprout} {since y z : DraftId} {own : List DraftId} {r : Reading}

/-- What stands for a sprout is the sprout in its new reading. -/
theorem Became.grown (h : d.Became since y z c.image (c.span.getD default) r) (hc : GrownAt d c y own) :
    ∃ own', GrownAt d (c.read r) z own' ∧ (∀ j ∈ own', j ∈ own ∨ since ≤ j) ∧
      ((∀ j ∈ own, j < since) → own.Nodup → own'.Nodup) := by
  cases h with
  | kept same =>
    subst same
    exact ⟨own, hc, fun j hj => .inl hj, fun _ hnd => hnd⟩
  | wrapped new around =>
    refine ⟨z :: own, ⟨_, _, around, allGrownAt_single hc, rfl⟩, ?_, fun hold hnd => ?_⟩
    · intro j hj
      rcases List.mem_cons.mp hj with rfl | hj
      · exact .inr new
      · exact .inl hj
    · exact List.nodup_cons.mpr ⟨fun hz => Nat.not_lt.mpr new (hold z hz), hnd⟩
  | named new made =>
    refine ⟨[z], ⟨_, _, made, ⟨rfl, rfl⟩, rfl⟩, fun j hj => ?_, fun _ _ => by simp⟩
    rw [List.mem_singleton.mp hj]
    exact .inr new
  | @namedAndWrapped v old new made around =>
    have hv : GrownAt d c.named v [v] := ⟨_, _, made, ⟨rfl, rfl⟩, rfl⟩
    refine ⟨[z, v], ⟨_, _, around, allGrownAt_single hv, rfl⟩, fun j hj => ?_, fun _ _ => ?_⟩
    · simp only [List.mem_cons, List.not_mem_nil, or_false] at hj
      rcases hj with rfl | rfl
      · exact .inr (Nat.le_trans old (Nat.le_of_lt new))
      · exact .inr old
    · simpa using (Nat.ne_of_lt new).symm

end Draft

open Draft in
/-- The finalizer settles the first child and does nothing else. -/
theorem Finalizer.disambiguate_implements {σ : Type} :
    (Finalizer.disambiguate : Finalizer σ).Implements Sprout.disambiguate := by
  intro d s parent x below m h
  obtain ⟨⟨kids, hx, hb⟩, hnd, hd⟩ := h
  cases hs : s.children with
  | nil =>
    rw [hs] at hb
    obtain ⟨rfl, rfl⟩ := hb
    refine ⟨d, [], run_disambiguate_leaf m hx rfl, ?_, .refl x [] d⟩
    rw [Sprout.disambiguate, hs]
    exact ⟨⟨[], hx, by rw [hs]; exact ⟨rfl, rfl⟩⟩, hnd, hd⟩
  | cons c cs =>
    rw [hs] at hb
    obtain ⟨y, ys, own, others, rfl, rfl, hy, hys⟩ := hb
    obtain ⟨hxb, hndb⟩ := List.nodup_cons.mp hnd
    obtain ⟨hndOwn, hndOthers, hapart⟩ := List.nodup_append.mp hndb
    obtain ⟨_, _, hlook, _, _⟩ := hy.root
    obtain ⟨q, hyn, _⟩ := look_eq_some hlook
    have hne : ∀ j ∈ own ++ others, j ≠ x := fun j hj he => hxb (he ▸ hj)
    have hown : ∀ j ∈ own, j < d.nodes.size := (allGrownAt_single hy).lt_size
    have hyx := hne y (List.mem_append_left _ hy.root_mem)
    obtain ⟨z, d', hrun, he, hbecame⟩ := run_disambiguate m hx (by simp) rfl hyn hyx (by simp)
    obtain ⟨own', hgrown, hfresh, hnd'⟩ := hbecame.grown
      (hy.frame fun j hj => he.look j (hown j hj) (hne j (List.mem_append_left _ hj)))
    have hnd' := hnd' hown hndOwn
    have hothers : AllGrownAt d' cs ys others := hys.frame fun j hj =>
      he.look j (hys.lt_size j hj) (hne j (List.mem_append_right _ hj))
    have hxlt := lt_size_of_nodes hx
    refine ⟨d', own' ++ others, hrun, ⟨⟨z :: ys, ?_, ?_⟩, ?_, he.sound hd⟩, he.size, ?_, ?_, he.lastEnd⟩
    · rw [Sprout.disambiguate, hs]
      exact he.self
    · rw [Sprout.disambiguate, hs]
      exact ⟨z, ys, own', others, rfl, rfl, hgrown, hothers⟩
    · refine List.nodup_cons.mpr ⟨fun hm => ?_, List.nodup_append.mpr ⟨hnd', hndOthers, ?_⟩⟩
      · rcases List.mem_append.mp hm with hm | hm
        · exact (hfresh x hm).elim (fun hm => hxb (List.mem_append_left _ hm))
            fun hle => Nat.not_lt.mpr hle hxlt
        · exact hxb (List.mem_append_right _ hm)
      · rintro j hj _ hm rfl
        exact (hfresh j hj).elim (fun hj => hapart j hj j hm rfl)
          fun hle => Nat.not_lt.mpr hle (hys.lt_size j hm)
    · intro j hj hout
      simp only [List.mem_cons, List.mem_append, not_or] at hout
      exact he.nodes j hj hout.1 fun hm => hout.2.1 (List.mem_singleton.mp hm ▸ hy.root_mem)
    · intro j hj
      rcases List.mem_append.mp hj with hj | hj
      · exact (hfresh j hj).imp_left (List.mem_append_left _)
      · exact .inl (List.mem_append_right _ hj)

end JavaSyntax
