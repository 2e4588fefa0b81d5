import JavaSyntax.Proofs.Text.Quoted
import JavaSyntax.Proofs.Tree.Looks
import JavaSyntax.Proofs.Tree.Visiting
import Mathlib.Data.List.Nodup

namespace JavaSyntax

namespace Kind

/-- The names, letter by letter. Comparing the letters costs far less than comparing the texts. -/
theorem exists_spellings : ∃ spellings : List (List Char),
    List.Forall₂ (fun k cs => name k = String.ofList cs) all spellings ∧ spellings.Nodup := by
  apply Exists.intro
  apply And.intro
  · repeat' first | apply List.Forall₂.cons | apply List.Forall₂.nil | apply Eq.refl
  · decide +kernel

theorem nodup_names : (all.map name).Nodup := by
  obtain ⟨spellings, hall, hnodup⟩ := exists_spellings
  have hnames {ks : List Kind} {css : List (List Char)}
      (h : List.Forall₂ (fun k cs => name k = String.ofList cs) ks css) :
      ks.map name = css.map String.ofList := by
    induction h with
    | nil => rfl
    | cons h _ ih => rw [List.map_cons, List.map_cons, h, ih]
  rw [hnames hall]
  exact hnodup.map fun _ _ => String.ofList_injective

theorem mem_all (k : Kind) : k ∈ all := by
  have hget : all[k.number]? = some k := by cases k <;> rfl
  exact List.mem_of_getElem? hget

/-- A name tells its kind. -/
theorem name_inj {k l : Kind} (h : k.name = l.name) : k = l :=
  List.inj_on_of_nodup_map nodup_names (mem_all k) (mem_all l) h

/-- A name starts with no space, and has no `@` further on. -/
theorem exists_letters (k : Kind) : ∃ c cs, k.name.toList = c :: cs ∧ (c == ' ') = false ∧
    ∀ d ∈ cs, (d != '@') = true := by
  have hletters : ∃ c cs, k.name = String.ofList (c :: cs) ∧ (c == ' ') = false ∧
      cs.all (· != '@') = true := by
    cases k <;> exact ⟨_, _, rfl, rfl, rfl⟩
  obtain ⟨c, cs, hname, hspace, hat⟩ := hletters
  exact ⟨c, cs, by rw [hname, String.toList_ofList], hspace, List.all_eq_true.mp hat⟩

end Kind

namespace Branch

/-- What a line of a dump is about: a node, and how deep it stands. -/
structure Line where
  depth : Nat
  kind : Kind
  image : Option String
  span : Span

def Line.text (l : Line) : List Char := (line l.depth l.kind l.image l.span).toList

/-- The end of a line, with the payload if there is one. -/
def lineEnd : Option String → List Char
  | none => ['\n']
  | some image => ' ' :: ((Text.quote image).toList ++ ['\n'])

theorem Line.text_eq (l : Line) : l.text = List.replicate (2 * l.depth) ' ' ++ (l.kind.name.toList ++
    '@' :: ((toString l.span.start).toList ++
      '.' :: '.' :: ((toString l.span.stop).toList ++ lineEnd l.image))) := by
  have hdots : (toString "..").toList = ['.', '.'] := rfl
  obtain ⟨depth, kind, image, span⟩ := l
  cases image <;>
    simp [text, line, label, lineEnd, Span.toString, String.toList_append, hdots]

theorem selfDelimiting_lineEnd : Text.SelfDelimiting lineEnd := by
  intro a b r s h
  cases a with
  | none =>
    cases b with
    | none => exact ⟨rfl, (List.cons.inj h).2⟩
    | some b => exact absurd (List.cons.inj h).1 (by decide)
  | some a =>
    cases b with
    | none => exact absurd (List.cons.inj h).1 (by decide)
    | some b =>
      simp only [lineEnd, List.cons_append, List.append_assoc, List.nil_append, List.cons.injEq,
        true_and] at h
      obtain ⟨himage, hrest⟩ := Text.selfDelimiting_quote h
      exact ⟨congrArg some himage, (List.cons.inj hrest).2⟩

theorem exists_head_lineEnd (image : Option String) :
    ∃ c cs, lineEnd image = c :: cs ∧ c.isDigit = false := by
  cases image with
  | none => exact ⟨_, _, rfl, rfl⟩
  | some image => exact ⟨_, _, rfl, rfl⟩

/-- A line tells all it is about, and where it ends. -/
theorem selfDelimiting_text : Text.SelfDelimiting Line.text := by
  intro a b r s h
  obtain ⟨c, cs, hname, hspace, hat⟩ := a.kind.exists_letters
  obtain ⟨d, ds, hname', hspace', hat'⟩ := b.kind.exists_letters
  obtain ⟨e, es, hend, hdigit⟩ := exists_head_lineEnd a.image
  obtain ⟨f, fs, hend', hdigit'⟩ := exists_head_lineEnd b.image
  have hspaces (n : Nat) : ∀ x ∈ List.replicate n ' ', (x == ' ') = true := by
    intro x hx
    rw [List.eq_of_mem_replicate hx, beq_self_eq_true]
  rw [Line.text_eq, Line.text_eq, hname, hname'] at h
  simp only [List.append_assoc, List.cons_append] at h
  obtain ⟨hindent, hfirst, hletters⟩ := Text.append_cons_inj (hspaces _) (hspaces _) hspace hspace' h
  obtain ⟨hmore, _, hspan⟩ :=
    Text.append_cons_inj (P := (· != '@')) hat hat' (by decide) (by decide) hletters
  obtain ⟨hstart, _, hdot⟩ := Text.numeral_cons_inj (by decide) (by decide) hspan
  have hnumeral := (List.cons.inj hdot).2
  rw [hend, hend', List.cons_append, List.cons_append] at hnumeral
  obtain ⟨hstop, hends⟩ := Text.numeral_cons_inj hdigit hdigit' hnumeral
  rw [← List.cons.injEq, ← List.cons_append, ← List.cons_append, ← hend, ← hend'] at hends
  obtain ⟨himage, hrest⟩ := selfDelimiting_lineEnd hends
  have hkind : a.kind = b.kind :=
    Kind.name_inj (String.toList_injective (by rw [hname, hname', hfirst, hmore]))
  have hdepth : a.depth = b.depth := by
    have := congrArg List.length hindent
    rw [List.length_replicate, List.length_replicate] at this
    omega
  obtain ⟨depth, kind, image, start, stop, _⟩ := a
  obtain ⟨depth', kind', image', start', stop', _⟩ := b
  dsimp only at hdepth hkind hstart hstop himage
  subst hdepth hkind hstart hstop himage
  exact ⟨rfl, hrest⟩

theorem Line.text_ne_nil (l : Line) : l.text ≠ [] := by
  rw [Line.text_eq]
  simp

mutual

/-- The lines for a node and everything below it, at some depth. -/
def linesAt (depth : Nat) : Branch → List Line
  | ⟨kind, image, span, children⟩ => ⟨depth, kind, image, span⟩ :: linesOfAllAt (depth + 1) children

def linesOfAllAt (depth : Nat) : List Branch → List Line
  | [] => []
  | b :: bs => b.linesAt depth ++ linesOfAllAt depth bs

end

mutual

theorem toList_dumpAt (depth : Nat) :
    (b : Branch) → (b.dumpAt depth).toList = (b.linesAt depth).flatMap Line.text
  | ⟨kind, image, span, children⟩ => by
    rw [dumpAt, linesAt, String.toList_append, List.flatMap_cons, toList_dumpAllAt (depth + 1) children,
      Line.text]

theorem toList_dumpAllAt (depth : Nat) :
    (bs : List Branch) → (dumpAllAt depth bs).toList = (linesOfAllAt depth bs).flatMap Line.text
  | [] => rfl
  | b :: bs => by
    rw [dumpAllAt, linesOfAllAt, String.toList_append, List.flatMap_append, toList_dumpAt depth b,
      toList_dumpAllAt depth bs]

end

/-- The first line, if there is one, stands no deeper than some depth. -/
def HeadAtMost (depth : Nat) (ls : List Line) : Prop := ∀ l ∈ ls.head?, l.depth ≤ depth

theorem headAtMost_linesOfAllAt_append {depth : Nat} {ls : List Line} (h : HeadAtMost depth ls) :
    (bs : List Branch) → HeadAtMost depth (linesOfAllAt depth bs ++ ls)
  | [] => h
  | ⟨kind, image, span, children⟩ :: bs => by
    intro l hl
    cases hl
    exact Nat.le_refl depth

theorem not_headAtMost_linesOfAllAt_cons {depth : Nat} {ls : List Line} :
    (b : Branch) → (bs : List Branch) → ¬HeadAtMost depth (linesOfAllAt (depth + 1) (b :: bs) ++ ls)
  | ⟨_, _, _, _⟩, _ => fun h => Nat.not_succ_le_self depth (h _ rfl)

mutual

/-- A node ends where the lines are no deeper than its own. -/
theorem linesAt_append_inj (depth : Nat) : (b c : Branch) → (ls ms : List Line) →
    HeadAtMost depth ls → HeadAtMost depth ms → b.linesAt depth ++ ls = c.linesAt depth ++ ms →
      b = c ∧ ls = ms
  | ⟨kind, image, span, children⟩, ⟨kind', image', span', children'⟩, ls, ms, hls, hms, h => by
    rw [linesAt, linesAt, List.cons_append, List.cons_append, List.cons.injEq, Line.mk.injEq] at h
    obtain ⟨⟨_, rfl, rfl, rfl⟩, hbelow⟩ := h
    obtain ⟨rfl, rfl⟩ := linesOfAllAt_append_inj depth children children' ls ms hls hms hbelow
    exact ⟨rfl, rfl⟩

/-- Siblings end where the lines are less deep. -/
theorem linesOfAllAt_append_inj (depth : Nat) : (bs cs : List Branch) → (ls ms : List Line) →
    HeadAtMost depth ls → HeadAtMost depth ms →
      linesOfAllAt (depth + 1) bs ++ ls = linesOfAllAt (depth + 1) cs ++ ms → bs = cs ∧ ls = ms
  | [], [], _, _, _, _, h => ⟨rfl, h⟩
  | [], c :: cs, ls, ms, hls, _, h => by
    have hdeep : HeadAtMost depth (linesOfAllAt (depth + 1) (c :: cs) ++ ms) := h ▸ hls
    exact absurd hdeep (not_headAtMost_linesOfAllAt_cons c cs)
  | b :: bs, [], ls, ms, _, hms, h => by
    have hdeep : HeadAtMost depth (linesOfAllAt (depth + 1) (b :: bs) ++ ls) := h ▸ hms
    exact absurd hdeep (not_headAtMost_linesOfAllAt_cons b bs)
  | b :: bs, c :: cs, ls, ms, hls, hms, h => by
    have hle {ns : List Line} (hns : HeadAtMost depth ns) : HeadAtMost (depth + 1) ns :=
      fun l hl => Nat.le_succ_of_le (hns l hl)
    rw [linesOfAllAt, linesOfAllAt, List.append_assoc, List.append_assoc] at h
    obtain ⟨rfl, hothers⟩ := linesAt_append_inj (depth + 1) b c _ _
      (headAtMost_linesOfAllAt_append (hle hls) bs) (headAtMost_linesOfAllAt_append (hle hms) cs) h
    obtain ⟨rfl, rfl⟩ := linesOfAllAt_append_inj depth bs cs ls ms hls hms hothers
    exact ⟨rfl, rfl⟩

end

/-- What stands below a node, and the node itself, can be read off the dump. -/
theorem dump_inj {b c : Branch} (h : b.dump = c.dump) : b = c := by
  have hlines : b.linesAt 0 = c.linesAt 0 := by
    apply selfDelimiting_text.flatMap_inj Line.text_ne_nil
    rw [← toList_dumpAt, ← toList_dumpAt]
    exact congrArg String.toList h
  have hnone : HeadAtMost 0 [] := by
    rintro l ⟨⟩
  exact (linesAt_append_inj 0 b c [] [] hnone hnone (by rw [hlines])).1

end Branch

namespace Tree

open Branch

/-- What a walk writes: a line on the way into each node, indented by the nodes it is inside of. -/
def written (t : Tree) : Nat → List WalkEvent → List Char
  | _, [] => []
  | depth, .enter n :: es =>
    Line.text ⟨depth, t.kind n, t.image n, t.span n⟩ ++ t.written (depth + 1) es
  | depth, .leave _ :: es => t.written (depth - 1) es

variable {t u : Tree}

/-- The part of the walk for a node writes its lines, and comes back to its depth. -/
theorem written_brackets {n depth : Nat} {b : Branch} (h : t.Rooted n b) (es : List WalkEvent) :
    t.written depth (t.brackets (fun _ => false) n ++ es) =
      (b.linesAt depth).flatMap Line.text ++ t.written depth es := by
  have hbelow {cs : List NodeId} {ds : List Branch} (hall : List.Forall₂ t.Rooted cs ds)
      (hcs : ∀ c ∈ cs, c ∈ t.children n) (es : List WalkEvent) :
      t.written (depth + 1) (cs.flatMap (t.brackets fun _ => false) ++ es) =
        (linesOfAllAt (depth + 1) ds).flatMap Line.text ++ t.written (depth + 1) es := by
    induction hall with
    | nil => rfl
    | @cons c d cs ds hc _ ih =>
      have hlt := lt_of_mem_children (hcs c List.mem_cons_self)
      rw [List.flatMap_cons, List.append_assoc, written_brackets hc, linesOfAllAt, List.flatMap_append,
        List.append_assoc, ih fun c hc => hcs c (List.mem_cons_of_mem _ hc)]
  have hlines : b.linesAt depth =
      ⟨depth, b.kind, b.image, b.span⟩ :: linesOfAllAt (depth + 1) b.children := by
    cases b
    rw [linesAt]
  rw [brackets_eq, if_neg Bool.false_ne_true, List.cons_append, written, List.append_assoc,
    hbelow h.forall₂_children (fun _ hc => hc), List.singleton_append, written, Nat.add_sub_cancel,
    hlines, List.flatMap_cons, h.kind_eq, h.image_eq, h.span_eq, List.append_assoc]
termination_by t.size - n

/-- The dump is what a preorder walk over the whole tree writes. -/
theorem toList_dump (t : Tree) :
    t.dump.toList = t.written 0 ((Preorder.ofNode 0).events t fun _ => false) := by
  have hsize : 0 < t.size := t.size_eq ▸ t.root.size_pos
  have hwritten : t.written 0 (t.brackets (fun _ => false) 0 ++ []) =
      (t.root.linesAt 0).flatMap Line.text ++ t.written 0 [] := written_brackets t.rooted_root []
  rw [List.append_nil, written, List.append_nil] at hwritten
  rw [events_ofNode_eq hsize, hwritten, dump, Branch.dump, toList_dumpAt]

/-- Subtrees are the same if all their nodes and the nodes below these are. -/
theorem eq_of_rooted {n : Nat} {b c : Branch} (h : ∀ m < t.size, t.kind m = u.kind m ∧
    t.span m = u.span m ∧ t.image m = u.image m ∧ t.children m = u.children m) (hn : n < t.size)
    (hb : t.Rooted n b) (hc : u.Rooted n c) : b = c := by
  obtain ⟨hkind, hspan, himage, hchildren⟩ := h n hn
  have hbelow {cs : List NodeId} {bs ds : List Branch} (hcs : ∀ c ∈ cs, c ∈ t.children n)
      (hbs : List.Forall₂ t.Rooted cs bs) (hds : List.Forall₂ u.Rooted cs ds) : bs = ds := by
    induction hbs generalizing ds with
    | nil => cases hds; rfl
    | @cons m b cs bs hb _ ih =>
      obtain _ | ⟨hd, hds⟩ := hds
      have hlt := lt_of_mem_children (hcs m List.mem_cons_self)
      rw [eq_of_rooted h hlt.2 hb hd, ih (fun c hc => hcs c (List.mem_cons_of_mem _ hc)) hds]
  have hsubtrees := hbelow (fun _ hc => hc) hb.forall₂_children (hchildren ▸ hc.forall₂_children)
  rw [hb.kind_eq, hc.kind_eq] at hkind
  rw [hb.span_eq, hc.span_eq] at hspan
  rw [hb.image_eq, hc.image_eq] at himage
  cases b
  cases c
  exact Branch.mk.injEq .. ▸ ⟨hkind, himage, hspan, hsubtrees⟩
termination_by t.size - n

/-- Two trees have the same dump exactly if they have as many nodes, and node by node in document order the
same kind, range, payload, parent and children. -/
theorem dump_eq_dump_iff (t u : Tree) : t.dump = u.dump ↔ t.size = u.size ∧ ∀ n < t.size,
    t.kind n = u.kind n ∧ t.span n = u.span n ∧ t.image n = u.image n ∧ t.parent n = u.parent n ∧
      t.children n = u.children n := by
  constructor
  · intro h
    have hroot : t.root = u.root := dump_inj h
    have hrow (n : NodeId) : t.row n = u.row n := by
      rw [row, row, t.rows_eq, u.rows_eq, hroot]
    refine ⟨by rw [size_eq, size_eq, hroot], fun n _ => ?_⟩
    simp only [kind, span, image, parent, children, hrow, and_self]
  · rintro ⟨_, h⟩
    have hsize : 0 < t.size := t.size_eq ▸ t.root.size_pos
    have hroot : t.root = u.root := by
      refine eq_of_rooted (fun n hn => ?_) hsize t.rooted_root u.rooted_root
      obtain ⟨hkind, hspan, himage, _, hchildren⟩ := h n hn
      exact ⟨hkind, hspan, himage, hchildren⟩
    rw [dump, dump, hroot]

end Tree

end JavaSyntax
