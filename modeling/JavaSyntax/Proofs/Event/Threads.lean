import JavaSyntax.Recorder
import Mathlib.Data.List.Nodup
import Mathlib.Data.List.Perm.Basic
import Mathlib.Data.List.Range

namespace JavaSyntax

/-- What matters of an entry for the threads. -/
def Entry.link : Entry → Option (Option UInt32)
  | .start _ forwardParent => some forwardParent
  | _ => none

namespace Recorder

variable {entries taken : List Entry}

/-- The position of a start, and those of the starts in front of it. -/
inductive Linked (entries : List Entry) : List Nat → Prop
  | last {p : Nat} {e : Entry} (found : entries[p]? = some e) (free : e.forwardParent? = none) :
    Linked entries [p]
  | link {p : Nat} {d : UInt32} {ps : List Nat} {k kind : Kind} {forwardParent : Option UInt32}
    (found : entries[p]? = some (.start k (some d))) (behind : 0 < d.toNat)
    (target : entries[p + d.toNat]? = some (.start kind forwardParent))
    (rest : Linked entries ((p + d.toNat) :: ps)) : Linked entries (p :: (p + d.toNat) :: ps)

/-- The blocks of a record, one for each entry: the thread that begins there, or nothing. -/
structure Threads (entries : List Entry) (blocks : List (List Nat)) : Prop where
  length : blocks.length = entries.length
  first : ∀ (i : Nat) (b : List Nat), blocks[i]? = some b → b = [] ∨ b.head? = some i
  linked : ∀ b ∈ blocks, b ≠ [] → Linked entries b
  perm : blocks.flatten.Perm (List.range entries.length)

/-- What an entry is replayed as. -/
def eventAt (entries : List Entry) (p : Nat) : Event :=
  match entries[p]? with
  | some (.start k _) => .start k
  | some (.token t inImage) => .token t inImage
  | _ => .finish

/-- The positions of a record in the order of their replay. -/
def order (blocks : List (List Nat)) : List Nat := blocks.flatMap List.reverse

/-- The events of a record in the order of their replay. -/
def eventsOf (entries : List Entry) (blocks : List (List Nat)) : List Event :=
  (order blocks).map (eventAt entries)

/-- Every node has a kind. -/
def Complete (entries : List Entry) : Prop :=
  ∀ (p : Nat) (k : Kind) (forwardParent : Option UInt32),
    entries[p]? = some (.start k forwardParent) → k ≠ .tombstone

/-- Threads go on through the entries. -/
theorem Linked.lt {p : Nat} {ps : List Nat} (h : Linked entries (p :: ps)) : ∀ q ∈ ps, p < q := by
  generalize hl : p :: ps = l at h
  induction h generalizing p ps with
  | last =>
    cases hl
    intro q hq
    cases hq
  | link _ behind _ _ ih =>
    cases hl
    intro q hq
    rcases List.mem_cons.mp hq with rfl | hq
    · omega
    · have := ih rfl q hq
      omega

theorem getElem?_set_tombstone {q : Nat} (hq : q < entries.length) (p : Nat) :
    (entries.set q .tombstone)[p]? = if p = q then some .tombstone else entries[p]? := by
  rw [List.getElem?_set]
  grind

/-- Unwinding a thread finds the kinds of its nodes and takes their starts. -/
theorem unwind_linked {p : Nat} {ps : List Nat} (h : Linked entries (p :: ps)) (hc : Complete entries)
    (hsame : ∀ q ∈ ps, taken[q]? = entries[q]?) :
    ∃ kinds taken', unwind taken p (entries[p]?.bind Entry.forwardParent?) = .ok (kinds, taken') ∧
      kinds.map Event.start = ps.map (eventAt entries) ∧ taken'.length = taken.length ∧
      ∀ x : Nat, taken'[x]? = if x ∈ ps then some .tombstone else taken[x]? := by
  generalize hl : p :: ps = l at h
  induction h generalizing p ps taken with
  | last found free =>
    cases hl
    refine ⟨[], taken, ?_, rfl, rfl, fun x => by simp⟩
    rw [found, Option.bind_some, free, unwind]
  | @link p d ps k kind forwardParent found behind target rest ih =>
    cases hl
    have hd : taken[p + d.toNat]? = some (.start kind forwardParent) := by
      rw [hsame _ List.mem_cons_self, target]
    have hlt : p + d.toNat < taken.length := (List.getElem?_eq_some_iff.mp hd).1
    have hset := getElem?_set_tombstone hlt
    have hrest : ∀ q ∈ ps, (taken.set (p + d.toNat) .tombstone)[q]? = entries[q]? := by
      intro q hq
      have hne := rest.lt q hq
      rw [hset, if_neg (by omega), hsame q (List.mem_cons_of_mem _ hq)]
    obtain ⟨kinds, taken', hunwind, hkinds, hlength, htaken⟩ := ih hrest rfl
    rw [target, Option.bind_some, Entry.forwardParent?_start] at hunwind
    refine ⟨kind :: kinds, taken', ?_, ?_, by rw [hlength, List.length_set], fun x => ?_⟩
    · rw [found, Option.bind_some, Entry.forwardParent?_start, unwind]
      split
      · next h => cases hd.symm.trans h
      · next h =>
        cases hd.symm.trans h
        rw [hunwind]
        simp [hc _ _ _ target, bind, Except.bind, pure, Except.pure]
      · next hne h => exact absurd (Option.some.inj (hd.symm.trans h)).symm (hne _ _)
    · rw [List.map_cons, List.map_cons, hkinds, eventAt, target]
    · rw [htaken, hset]
      grind

variable {blocks done rest : List (List Nat)}

/-- A thread stands behind where it begins. -/
theorem Threads.le_of_mem (h : Threads entries blocks) {i p : Nat} {b : List Nat}
    (hb : blocks[i]? = some b) (hp : p ∈ b) : i ≤ p := by
  cases b with
  | nil => cases hp
  | cons q qs =>
    have hq : q = i := by simpa using (h.first i _ hb).resolve_left (by simp)
    have hlinked := h.linked _ (List.mem_of_getElem? hb) (by simp)
    rcases List.mem_cons.mp hp with rfl | hp
    · omega
    · have := hlinked.lt p hp
      omega

/-- What the replay has not come to yet. The starts of threads that began before are taken. -/
structure Left (entries : List Entry) (done : List (List Nat)) (taken : List Entry) : Prop where
  length : taken.length = entries.length
  found : ∀ p : Nat, done.length ≤ p →
    taken[p]? = if p ∈ done.flatten then some .tombstone else entries[p]?

theorem Left.next {ps : List Nat} {taken' : List Entry} (hleft : Left entries done taken)
    (hlength : taken'.length = taken.length)
    (h : ∀ x : Nat, done.length < x →
      taken'[x]? = if x ∈ ps then some .tombstone else taken[x]?) :
    Left entries (done ++ [done.length :: ps]) taken' := by
  refine ⟨hlength.trans hleft.length, fun x hx => ?_⟩
  rw [List.length_append, List.length_singleton] at hx
  rw [h x hx, hleft.found x (by omega), List.flatten_append, List.flatten_singleton]
  have hne : x ≠ done.length := by omega
  simp only [List.mem_append, List.mem_cons, hne, false_or]
  grind

/-- A block holds no position of an earlier one. -/
theorem Threads.fresh {b : List Nat} (h : Threads entries (done ++ b :: rest)) :
    ∀ q ∈ b, q ∉ done.flatten := by
  have hnodup := h.perm.nodup_iff.mpr List.nodup_range
  rw [List.flatten_append, List.flatten_cons] at hnodup
  obtain ⟨_, _, hapart⟩ := List.nodup_append.mp hnodup
  exact fun q hq hd => hapart q hd q (List.mem_append_left _ hq) rfl

/-- The thread through a start that begins none began earlier. -/
theorem Threads.absorbed (h : Threads entries (done ++ [] :: rest)) : done.length ∈ done.flatten := by
  have hlt : done.length < entries.length := by
    have := h.length
    simp only [List.length_append, List.length_cons] at this
    omega
  have hall := h.perm.mem_iff.mpr (List.mem_range.mpr hlt)
  rw [List.flatten_append, List.flatten_cons, List.nil_append] at hall
  refine (List.mem_append.mp hall).resolve_right fun hrest => ?_
  obtain ⟨b, hb, hmem⟩ := List.mem_flatten.mp hrest
  obtain ⟨j, hj⟩ := List.mem_iff_getElem?.mp hb
  have hat : (done ++ [] :: rest)[done.length + (j + 1)]? = some b := by
    rw [List.getElem?_append_right (by omega)]
    simpa using hj
  have := h.le_of_mem hat hmem
  omega

theorem play_absorbed {σ : Type} (h : Threads entries (done ++ [] :: rest))
    (hleft : Left entries done taken) (r : Replay σ) :
    ∃ taken', Left entries (done ++ [[]]) taken' ∧ play (taken, r) done.length = .ok (taken', r) := by
  have hfound : taken[done.length]? = some .tombstone := by
    rw [hleft.found _ (Nat.le_refl _), if_pos h.absorbed]
  have hlt := (List.getElem?_eq_some_iff.mp hfound).1
  refine ⟨taken.set done.length .tombstone, ⟨List.length_set.trans hleft.length, fun x hx => ?_⟩, ?_⟩
  · rw [List.length_append, List.length_singleton] at hx
    rw [getElem?_set_tombstone hlt, if_neg (by omega), hleft.found x (by omega), List.flatten_append,
      List.flatten_singleton, List.append_nil]
  · simp only [play, hfound]
    rfl

/-- Only starts have others in front of them. -/
theorem Linked.eq_nil {p : Nat} {ps : List Nat} (h : Linked entries (p :: ps))
    (hp : ∀ k forwardParent, entries[p]? ≠ some (.start k forwardParent)) : ps = [] := by
  cases h with
  | last => rfl
  | link found => exact absurd found (hp _ _)

theorem play_thread {σ : Type} {ps : List Nat}
    (h : Threads entries (done ++ (done.length :: ps) :: rest)) (hc : Complete entries)
    (hleft : Left entries done taken) (r : Replay σ) :
    ∃ taken', Left entries (done ++ [done.length :: ps]) taken' ∧ play (taken, r) done.length =
      ((((done.length :: ps).reverse.map (eventAt entries)).foldlM Replay.step r).mapError
        Halt.construction).map (taken', ·) := by
  have hlinked := h.linked (done.length :: ps) (by simp) (by simp)
  have hsame : ∀ q ∈ done.length :: ps, taken[q]? = entries[q]? := by
    intro q hq
    have hle := h.le_of_mem (i := done.length) (by simp) hq
    rw [hleft.found q hle, if_neg (h.fresh q hq)]
  have hfirst := hsame _ List.mem_cons_self
  obtain ⟨e, he⟩ : ∃ e, entries[done.length]? = some e := by
    cases hlinked with
    | last found => exact ⟨_, found⟩
    | link found => exact ⟨_, found⟩
  have hset := getElem?_set_tombstone (List.getElem?_eq_some_iff.mp (hfirst.trans he)).1
  have hlength : (taken.set done.length .tombstone).length = taken.length := List.length_set
  have hplain (hps : ps = []) : Left entries (done ++ [done.length :: ps])
      (taken.set done.length .tombstone) := by
    subst hps
    exact hleft.next hlength fun x hx => by rw [hset, if_neg (by omega)]; simp
  cases e with
  | start k forwardParent =>
    have hrest : ∀ q ∈ ps, (taken.set done.length .tombstone)[q]? = entries[q]? := by
      intro q hq
      have hne := hlinked.lt q hq
      rw [hset, if_neg (by omega), hsame q (List.mem_cons_of_mem _ hq)]
    obtain ⟨kinds, taken', hunwind, hkinds, hlength', htaken⟩ := unwind_linked hlinked hc hrest
    rw [he, Option.bind_some, Entry.forwardParent?_start] at hunwind
    refine ⟨taken', hleft.next (hlength'.trans hlength) fun x hx => ?_, ?_⟩
    · rw [htaken, hset, if_neg (c := x = done.length) (by omega)]
    · have hevents : (k :: kinds).reverse.map Event.start =
          (done.length :: ps).reverse.map (eventAt entries) := by
        rw [List.map_reverse, List.map_reverse, List.map_cons, List.map_cons, hkinds, eventAt, he]
      rw [← hevents]
      simp only [play, hfirst, he, if_neg (hc _ _ _ he), hunwind]
      change ((((k :: kinds).reverse.map Event.start).foldlM Replay.step r).mapError
        Halt.construction >>= fun replay => pure (taken', replay)) = _
      cases ((k :: kinds).reverse.map Event.start).foldlM Replay.step r <;> rfl
  | token t inImage =>
    obtain rfl := hlinked.eq_nil (by simp [he])
    refine ⟨_, hplain rfl, ?_⟩
    simp only [play, hfirst, he, List.reverse_singleton, List.map_singleton, eventAt, List.foldlM_cons]
    cases r.step (.token t inImage) <;> rfl
  | finish =>
    obtain rfl := hlinked.eq_nil (by simp [he])
    refine ⟨_, hplain rfl, ?_⟩
    simp only [play, hfirst, he, List.reverse_singleton, List.map_singleton, eventAt, List.foldlM_cons]
    cases r.step .finish <;> rfl

/-- One step of a replay takes one block. -/
theorem play_block {σ : Type} {b : List Nat} (h : Threads entries (done ++ b :: rest))
    (hc : Complete entries) (hleft : Left entries done taken) (r : Replay σ) :
    ∃ taken', Left entries (done ++ [b]) taken' ∧ play (taken, r) done.length =
      (((b.reverse.map (eventAt entries)).foldlM Replay.step r).mapError Halt.construction).map
        (taken', ·) := by
  rcases h.first done.length b (by simp) with rfl | hhead
  · exact play_absorbed h hleft r
  · obtain ⟨ps, rfl⟩ := List.head?_eq_some_iff.mp hhead
    exact play_thread h hc hleft r

/-- A replay of blocks that are left. -/
theorem foldlM_play {σ : Type} (h : Threads entries (done ++ rest)) (hc : Complete entries)
    (hleft : Left entries done taken) (r : Replay σ) :
    ∃ taken', (List.range' done.length rest.length).foldlM play (taken, r) =
      (((eventsOf entries rest).foldlM Replay.step r).mapError Halt.construction).map (taken', ·) := by
  induction rest generalizing done taken r with
  | nil => exact ⟨taken, rfl⟩
  | cons b rest ih =>
    obtain ⟨taken₁, hleft₁, hplay⟩ := play_block h hc hleft r
    have hevents : eventsOf entries (b :: rest) = b.reverse.map (eventAt entries) ++ eventsOf entries rest := by
      simp [eventsOf, order]
    rw [List.length_cons, List.range'_succ, List.foldlM_cons, hplay, hevents, List.foldlM_append]
    cases hrun : (b.reverse.map (eventAt entries)).foldlM Replay.step r with
    | error e => exact ⟨taken₁, rfl⟩
    | ok r₁ =>
      have h₁ : Threads entries ((done ++ [b]) ++ rest) := by simpa using h
      obtain ⟨taken', hrest⟩ := ih h₁ hleft₁ r₁
      rw [List.length_append, List.length_singleton] at hrest
      exact ⟨taken', hrest⟩

/-- A record without open markers is replayed as the events of its threads. -/
theorem finish_eq_of_threads {σ : Type} {r : Recorder} (h : Threads r.entries blocks)
    (hc : Complete r.entries) (harmed : r.armed = []) (f : Finalizer σ) (m : σ) :
    r.finish f m = ((buildTree r.text f m (eventsOf r.entries blocks)).mapError Halt.construction).map
      fun (tree, m) => (⟨tree, r.errors⟩, m) := by
  have hleft : Left r.entries [] r.entries := ⟨rfl, fun p _ => by simp⟩
  have hall : Threads r.entries ([] ++ blocks) := h
  obtain ⟨taken', hrun⟩ := foldlM_play hall hc hleft ⟨.start r.text f m, [], none⟩
  rw [List.length_nil, h.length, ← List.range_eq_range'] at hrun
  simp only [finish, harmed]
  rw [hrun, buildTree]
  cases (eventsOf r.entries blocks).foldlM Replay.step ⟨.start r.text f m, [], none⟩ with
  | error e => rfl
  | ok replay =>
    change (replay.finish.mapError Halt.construction >>= _) = _
    cases hfinish : replay.finish with
    | error e => simp [hfinish, bind, Except.bind, Except.mapError, Except.map]
    | ok tree => simp [hfinish, bind, Except.bind, Except.mapError, Except.map, pure, Except.pure]

theorem perm_order (blocks : List (List Nat)) : (order blocks).Perm blocks.flatten := by
  rw [← List.flatMap_id']
  exact List.Perm.flatMap_left _ fun b _ => List.reverse_perm b

theorem Threads.nodup_order (h : Threads entries blocks) : (order blocks).Nodup :=
  ((perm_order blocks).trans h.perm).nodup_iff.mpr List.nodup_range

theorem Threads.mem_order (h : Threads entries blocks) {p : Nat} :
    p ∈ order blocks ↔ p < entries.length := by
  rw [((perm_order blocks).trans h.perm).mem_iff, List.mem_range]

theorem Linked.congr {entries' : List Entry} {b : List Nat} (h : Linked entries b)
    (same : ∀ p ∈ b, ∀ e, entries[p]? = some e → ∃ e', entries'[p]? = some e' ∧ e'.link = e.link) :
    Linked entries' b := by
  induction h with
  | @last p e found free =>
    obtain ⟨e', found', hlink⟩ := same p List.mem_cons_self e found
    refine .last found' ?_
    cases e <;> cases e' <;> simp_all [Entry.link, Entry.forwardParent?]
  | link found behind target _ ih =>
    obtain ⟨e₁, found₁, hlink₁⟩ := same _ List.mem_cons_self _ found
    obtain ⟨e₂, found₂, hlink₂⟩ := same _ (List.mem_cons_of_mem _ List.mem_cons_self) _ target
    cases e₁ with
    | start k d =>
      cases e₂ with
      | start k' d' =>
        obtain rfl := Option.some.inj hlink₁
        exact .link found₁ behind found₂ (ih fun q hq => same q (List.mem_cons_of_mem _ hq))
      | token | finish => cases hlink₂
    | token | finish => cases hlink₁

theorem Threads.append (h : Threads entries blocks) {e : Entry} (he : e.forwardParent? = none) :
    Threads (entries ++ [e]) (blocks ++ [[entries.length]]) := by
  refine ⟨by simp [h.length], fun i b hb => ?_, fun b hb hne => ?_, ?_⟩
  · rw [List.getElem?_append] at hb
    split at hb
    · exact h.first i b hb
    · have hlength := h.length
      obtain ⟨hi, rfl⟩ : i = entries.length ∧ b = [entries.length] := by
        cases hj : i - blocks.length with
        | zero =>
          rw [hj] at hb
          exact ⟨by omega, (Option.some.inj hb).symm⟩
        | succ j =>
          rw [hj] at hb
          cases hb
      exact .inr (by rw [hi]; rfl)
  · rcases List.mem_append.mp hb with hb | hb
    · refine (h.linked b hb hne).congr fun p _ e' hp => ⟨e', ?_, rfl⟩
      rw [List.getElem?_append_left (List.getElem?_eq_some_iff.mp hp).1, hp]
    · rw [List.mem_singleton.mp hb]
      exact .last List.getElem?_concat_length he
  · rw [List.flatten_append, List.flatten_singleton, List.length_append, List.length_singleton,
      List.range_succ]
    exact h.perm.append_right _

/-- A start may get another kind. -/
theorem Threads.set (h : Threads entries blocks) {p : Nat} {k k' : Kind} {forwardParent : Option UInt32}
    (hp : entries[p]? = some (.start k forwardParent)) :
    Threads (entries.set p (.start k' forwardParent)) blocks := by
  refine ⟨by rw [h.length, List.length_set], h.first, fun b hb hne => ?_, by
    rw [List.length_set]
    exact h.perm⟩
  refine (h.linked b hb hne).congr fun q _ e hq => ?_
  rw [List.getElem?_set]
  by_cases heq : p = q
  · subst heq
    cases hp.symm.trans hq
    exact ⟨.start k' forwardParent, by simp [(List.getElem?_eq_some_iff.mp hp).1], rfl⟩
  · exact ⟨e, by rw [if_neg heq, hq], rfl⟩

/-- A start without another in front of it ends its thread. -/
theorem Linked.eq_concat {b : List Nat} {c : Nat} {k : Kind} (h : Linked entries b) (hc : c ∈ b)
    (hfree : entries[c]? = some (.start k none)) : ∃ b₀, b = b₀ ++ [c] := by
  induction h with
  | last => exact ⟨[], by rw [List.mem_singleton.mp hc]; rfl⟩
  | @link p d ps _ _ _ found _ _ _ ih =>
    have hne : c ≠ p := by
      rintro rfl
      cases hfree.symm.trans found
    obtain ⟨b₀, hb⟩ := ih ((List.mem_cons.mp hc).resolve_left hne)
    exact ⟨p :: b₀, by rw [hb]; rfl⟩

/-- The thread goes on. -/
theorem Linked.concat {entries' : List Entry} {b₀ : List Nat} {c : Nat} {d : UInt32} {k kind : Kind}
    (h : Linked entries (b₀ ++ [c]))
    (same : ∀ p ∈ b₀, entries'[p]? = entries[p]?) (hc : entries'[c]? = some (.start k (some d)))
    (hd : 0 < d.toNat) (target : entries'[c + d.toNat]? = some (.start kind none)) :
    Linked entries' (b₀ ++ [c, c + d.toNat]) := by
  induction b₀ with
  | nil => exact .link hc hd target (.last target rfl)
  | cons p ps ih =>
    have hrest := fun hps => ih hps fun q hq => same q (List.mem_cons_of_mem _ hq)
    have hp := same p List.mem_cons_self
    cases ps with
    | nil =>
      cases h with
      | link found behind _ rest => exact .link (hp.trans found) behind hc (hrest rest)
    | cons q qs =>
      cases h with
      | link found behind goal rest =>
        have goal' := (same _ (List.mem_cons_of_mem _ List.mem_cons_self)).trans goal
        exact .link (hp.trans found) behind goal' (hrest rest)

/-- Where a thread ends that may go on. -/
theorem Threads.exists_split (h : Threads entries blocks) {c : Nat} {k : Kind} {ls rs : List Nat}
    (hc : entries[c]? = some (.start k none)) (ho : order blocks = ls ++ c :: rs) :
    ∃ as b₀ cs, blocks = as ++ (b₀ ++ [c]) :: cs ∧ ls = order as ∧ rs = b₀.reverse ++ order cs := by
  have hmem : c ∈ blocks.flatten := (perm_order blocks).mem_iff.mp (ho ▸ by simp)
  obtain ⟨b, hb, hcb⟩ := List.mem_flatten.mp hmem
  obtain ⟨b₀, rfl⟩ := (h.linked b hb (List.ne_nil_of_mem hcb)).eq_concat hcb hc
  obtain ⟨as, cs, rfl⟩ := List.append_of_mem hb
  -- the order has `c` at one place only
  have hnodup := h.nodup_order
  have hsplit : order (as ++ (b₀ ++ [c]) :: cs) = order as ++ c :: (b₀.reverse ++ order cs) := by
    simp [order]
  obtain ⟨hls, -, hrs⟩ :=
    (List.append_cons_inj_of_notMem (by grind) (by grind)).mp (ho.symm.trans hsplit)
  exact ⟨as, b₀, cs, rfl, hls, hrs⟩

/-- A longer block still begins where it did. -/
theorem Threads.first_extended {as cs : List (List Nat)} {b₀ : List Nat} {c : Nat}
    (h : Threads entries (as ++ (b₀ ++ [c]) :: cs)) (n i : Nat) (b : List Nat)
    (hb : (as ++ (b₀ ++ [c, n]) :: (cs ++ [[]]))[i]? = some b) : b = [] ∨ b.head? = some i := by
  have hfirst := h.first i
  rw [List.getElem?_append] at hb hfirst
  split at hb
  · rw [if_pos ‹_›] at hfirst
    exact hfirst b hb
  rw [if_neg ‹_›] at hfirst
  cases hj : i - as.length with
  | zero =>
    rw [hj] at hb hfirst
    obtain rfl := Option.some.inj hb
    have := hfirst _ rfl
    cases b₀ <;> simp_all
  | succ j =>
    rw [hj, List.getElem?_cons_succ] at hb hfirst
    rw [List.getElem?_append] at hb
    split at hb
    · exact hfirst b hb
    · exact .inl (by cases hk : j - cs.length <;> simp_all)

/-- The entries with a new start in front of the one at a position. -/
def precedeAt (entries : List Entry) (c : Nat) (k : Kind) : List Entry :=
  (entries ++ [Entry.tombstone]).set c (.start k (some (UInt32.ofNat (entries.length - c))))

section

variable {b b₀ : List Nat} {c : Nat}

theorem getElem?_precedeAt (hc : c < entries.length) (k : Kind) (p : Nat) :
    (precedeAt entries c k)[p]? =
      if p = c then some (.start k (some (UInt32.ofNat (entries.length - c))))
      else if p = entries.length then some .tombstone else entries[p]? := by
  simp only [precedeAt, List.getElem?_set, List.getElem?_append]
  grind

theorem getElem?_precedeAt_old {k : Kind} {p : Nat} (hc : c < entries.length) (hp : p < entries.length)
    (hne : p ≠ c) : (precedeAt entries c k)[p]? = entries[p]? := by
  rw [getElem?_precedeAt hc, if_neg hne, if_neg (by omega)]

theorem Linked.lt_length (h : Linked entries b) : ∀ p ∈ b, p < entries.length := by
  induction h with
  | last found => exact List.forall_mem_singleton.mpr (List.getElem?_eq_some_iff.mp found).1
  | link found _ _ _ ih => exact List.forall_mem_cons.mpr ⟨(List.getElem?_eq_some_iff.mp found).1, ih⟩

/-- The other threads stay as they are. -/
theorem Linked.beside (h : Linked entries b) (hc : c < entries.length) (hcb : c ∉ b) (k : Kind) :
    Linked (precedeAt entries c k) b := by
  refine h.congr fun p hp e he => ⟨e, ?_, rfl⟩
  rw [getElem?_precedeAt_old hc (h.lt_length p hp) (fun hpc => hcb (hpc ▸ hp)), he]

/-- The thread that ended there goes on to the new start. -/
theorem Linked.extended (h : Linked entries (b₀ ++ [c])) (hcb : c ∉ b₀)
    (hfits : entries.length < UInt32.size) (k : Kind) :
    Linked (precedeAt entries c k) (b₀ ++ [c, entries.length]) := by
  have hlt := h.lt_length
  have hc : c < entries.length := hlt c (by simp)
  have hdistance : (UInt32.ofNat (entries.length - c)).toNat = entries.length - c :=
    UInt32.toNat_ofNat_of_lt' (by omega)
  have hbound : c + (UInt32.ofNat (entries.length - c)).toNat = entries.length := by omega
  have hsame : ∀ p ∈ b₀, (precedeAt entries c k)[p]? = entries[p]? := fun p hp =>
    getElem?_precedeAt_old hc (hlt p (List.mem_append_left _ hp)) fun hpc => hcb (hpc ▸ hp)
  have hstart : (precedeAt entries c k)[c]? =
      some (.start k (some (UInt32.ofNat (entries.length - c)))) := by
    rw [getElem?_precedeAt hc, if_pos rfl]
  have hnew : (precedeAt entries c k)[c + (UInt32.ofNat (entries.length - c)).toNat]? =
      some (.start .tombstone none) := by
    rw [hbound, getElem?_precedeAt hc, if_neg (by omega), if_pos rfl]
    rfl
  have hlast := h.concat hsame hstart (by omega) hnew
  rwa [hbound] at hlast

end

/-- A new start in front of another is replayed right before it. -/
theorem Threads.precede (h : Threads entries blocks) {c : Nat} {k : Kind} {ls rs : List Nat}
    (hc : entries[c]? = some (.start k none)) (ho : order blocks = ls ++ c :: rs)
    (hfits : entries.length < UInt32.size) :
    ∃ blocks', Threads (precedeAt entries c k) blocks' ∧
      order blocks' = ls ++ entries.length :: c :: rs := by
  have hlt := (List.getElem?_eq_some_iff.mp hc).1
  obtain ⟨as, b₀, cs, rfl, rfl, rfl⟩ := h.exists_split hc ho
  have hnodup := h.nodup_order
  rw [ho] at hnodup
  refine ⟨as ++ (b₀ ++ [c, entries.length]) :: (cs ++ [[]]), ⟨?_, h.first_extended _, ?_, ?_⟩, ?_⟩
  · have := h.length
    simp only [List.length_append, List.length_cons] at this
    simp only [precedeAt, List.length_append, List.length_cons, List.length_set]
    omega
  · have hother (b : List Nat) (hb : b ∈ as ∨ b ∈ cs) (hne : b ≠ []) :
        Linked (precedeAt entries c k) b := by
      have hcb : c ∉ b := by
        intro hcb
        have hmem : c ∈ order as ∨ c ∈ order cs := by
          rw [order, order, List.mem_flatMap, List.mem_flatMap]
          exact hb.imp (⟨b, ·, List.mem_reverse.mpr hcb⟩) (⟨b, ·, List.mem_reverse.mpr hcb⟩)
        grind
      have hb' : b ∈ as ++ (b₀ ++ [c]) :: cs := by
        rw [List.mem_append, List.mem_cons]
        exact hb.imp_right .inr
      exact (h.linked b hb' hne).beside hlt hcb k
    intro b hb hne
    simp only [List.mem_append, List.mem_cons, List.not_mem_nil, or_false] at hb
    rcases hb with hb | rfl | hb | rfl
    · exact hother b (.inl hb) hne
    · exact (h.linked (b₀ ++ [c]) (by simp) (by simp)).extended (by grind) hfits k
    · exact hother b (.inr hb) hne
    · exact absurd rfl hne
  · rw [precedeAt, List.length_set, List.length_append, List.length_singleton, List.range_succ]
    refine List.Perm.trans ?_ (h.perm.append_right [entries.length])
    simp only [List.flatten_append, List.flatten_cons, List.flatten_nil, List.append_nil]
    grind
  · simp [order]

end Recorder

end JavaSyntax
