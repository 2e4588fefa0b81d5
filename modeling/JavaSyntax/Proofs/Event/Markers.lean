import JavaSyntax.Proofs.Event.Threads
import JavaSyntax.Proofs.Event.Watching

namespace JavaSyntax

/-- What a node holds so far. A node inside it is known by the number of entries in front of its start. It is
fronted when a marker was put in front of it. -/
inductive Part where
  | token (token : Token) (inImage : Bool)
  | node (position : Nat) (kind : Kind) (fronted : Bool) (parts : List Part)

/-- An entry of a record in the order of its replay. -/
inductive Item where
  | opened (position : Nat)
  | start (position : Nat) (kind : Kind) (fronted : Bool)
  | token (token : Token) (inImage : Bool)
  | finish

namespace Part

mutual

def piece : Part → Piece
  | .token t inImage => .token t inImage
  | .node _ k _ parts => .node k (pieces parts)

def pieces : List Part → List Piece
  | [] => []
  | p :: ps => p.piece :: pieces ps

end

mutual

def items : Part → List Item
  | .token t inImage => [.token t inImage]
  | .node position k fronted parts => .start position k fronted :: itemsOfAll parts ++ [.finish]

def itemsOfAll : List Part → List Item
  | [] => []
  | p :: ps => p.items ++ itemsOfAll ps

end

/-- The node that a completed marker stands for. -/
def isAt (c : CompletedMarker) : Part → Bool
  | .token _ _ => false
  | .node position k _ _ => UInt32.ofNat position == c.position && k == c.kind

end Part

namespace Recorder

/-- A use of a record. -/
inductive Action where
  | start
  | bump (inImage : Bool)
  | error (message : String)
  | errorAndBump (message : String)
  | complete (m : Marker) (kind : Kind)
  | precede (c : CompletedMarker)

def perform (r : Recorder) : Action → Except Fault Recorder
  | .start => .ok r.start.2
  | .bump inImage => .ok (r.bump inImage)
  | .error message => .ok (r.error message)
  | .errorAndBump message => r.errorAndBump message
  | .complete m kind => (r.complete m kind).map Prod.snd
  | .precede c => (r.precede c).map Prod.snd

def performAll (r : Recorder) (actions : List Action) : Except Fault Recorder := actions.foldlM perform r

end Recorder

/-- A well-nested session so far: what the innermost open node holds, and around it, innermost first, the
open nodes with what stands in front of each. -/
structure Nest where
  text : String
  ahead : List Token
  errors : List Diagnostic
  parts : List Part
  around : List (Nat × List Part)

namespace Nest

open Recorder

def ofText (text : String) : Nest := ⟨text, tokenize text, [], [], []⟩

/-- The entries around the innermost open node. -/
def itemsAround : List (Nat × List Part) → List Item
  | [] => []
  | (position, before) :: around => itemsAround around ++ (Part.itemsOfAll before ++ [.opened position])

def items (n : Nest) : List Item := itemsAround n.around ++ Part.itemsOfAll n.parts

/-- The number of entries. A node is known by those in front of its start, and a marker has the last 32 bits of
their number. -/
def recorded (n : Nest) : Nat := n.items.length

def start (n : Nest) : Nest := { n with parts := [], around := (n.recorded, n.parts) :: n.around }

/-- The next token goes into the innermost open node. -/
def bump (n : Nest) (inImage : Bool) : Nest :=
  match n.ahead with
  | [] => n
  | t :: ahead => if t.kind = .eof then n else { n with ahead, parts := n.parts ++ [.token t inImage] }

def error (n : Nest) (message : String) : Nest :=
  let span := (n.ahead.head?.map Token.span).getD (.empty n.text.utf8ByteSize)
  { n with errors := n.errors ++ [⟨message, span⟩] }

/-- The innermost open node ends and is a node of the one around it, which held this before. -/
def closing (n : Nest) (position : Nat) (before : List Part) (around : List (Nat × List Part))
    (kind : Kind) : Nest :=
  { n with parts := before ++ [.node position kind false n.parts], around }

def complete (n : Nest) (m : Marker) (kind : Kind) : Option Nest :=
  match n.around with
  | [] => none
  | (innermost, before) :: around =>
    if m = ⟨UInt32.ofNat innermost⟩ ∧ kind.isNode ∧ kind ≠ .tombstone then
      some (n.closing innermost before around kind)
    else none

/-- A node of the innermost open one, and what came after it, is in a new one from now on. -/
def fronting (n : Nest) (before : List Part) (position : Nat) (kind : Kind) (inside after : List Part) :
    Nest :=
  { n with
    parts := .node position kind true inside :: after
    around := (n.recorded, before) :: n.around }

def precede (n : Nest) (c : CompletedMarker) : Option Nest :=
  match n.parts.dropWhile (!Part.isAt c ·) with
  | .node position kind false inside :: after =>
    some (n.fronting (n.parts.takeWhile (!Part.isAt c ·)) position kind inside after)
  | _ => none

/-- An action that keeps the session well-nested. -/
def perform (n : Nest) : Action → Option Nest
  | .start => some n.start
  | .bump inImage => some (n.bump inImage)
  | .error message => some (n.error message)
  | .errorAndBump message =>
    ((n.start.error message).bump false).complete ⟨UInt32.ofNat n.recorded⟩ .error
  | .complete m kind => n.complete m kind
  | .precede c => n.precede c

def performAll (n : Nest) (actions : List Action) : Option Nest := actions.foldlM perform n

end Nest

namespace Item

def event : Item → Event
  | .opened _ => .start .tombstone
  | .start _ k _ => .start k
  | .token t inImage => .token t inImage
  | .finish => .finish

/-- What is known of the entries of a text. -/
def Fits (text : String) : Item → Prop
  | .start _ k _ => k.isNode = true ∧ k ≠ .tombstone
  | .token t _ => t ∈ significantTokens text
  | _ => True

end Item

namespace Part

@[simp] theorem itemsOfAll_append (ps qs : List Part) :
    itemsOfAll (ps ++ qs) = itemsOfAll ps ++ itemsOfAll qs := by
  induction ps with
  | nil => rfl
  | cons p ps ih => simp only [List.cons_append, itemsOfAll, ih, List.append_assoc]

mutual

theorem events_piece : ∀ p : Part, p.items.map Item.event = p.piece.events
  | .token _ _ => rfl
  | .node _ _ _ parts => by
    simp only [items, piece, Piece.events, List.map_append, List.map_cons, events_pieces parts,
      Item.event, List.map_nil]

theorem events_pieces : ∀ ps : List Part,
    (itemsOfAll ps).map Item.event = Piece.eventsOfAll (pieces ps)
  | [] => rfl
  | p :: ps => by
    simp only [itemsOfAll, pieces, Piece.eventsOfAll, List.map_append, events_piece p,
      events_pieces ps]

end

mutual

theorem opened_notMem (i : Nat) : ∀ p : Part, Item.opened i ∉ p.items
  | .token _ _ => by simp [items]
  | .node _ _ _ parts => by simpa [items] using opened_notMem_all i parts

theorem opened_notMem_all (i : Nat) : ∀ ps : List Part, Item.opened i ∉ itemsOfAll ps
  | [] => by simp [itemsOfAll]
  | p :: ps => by simpa [itemsOfAll] using ⟨opened_notMem i p, opened_notMem_all i ps⟩

end

mutual

theorem suits_piece {text : String} : ∀ p : Part, (∀ x ∈ p.items, x.Fits text) →
    p.piece.Suits id ∧ ∀ t ∈ p.piece.tokens, t ∈ significantTokens text
  | .token t inImage, h => ⟨trivial, fun t' ht' => by
    rw [List.mem_singleton.mp ht']
    exact h (.token t inImage) List.mem_cons_self⟩
  | .node position k fronted parts, h => by
    have ih := suit_pieces parts fun x hx => h x (by simp [items, hx])
    have hk : k.isNode = true := (h (.start position k fronted) (by simp [items])).1
    exact ⟨⟨hk, .inl fun _ _ => rfl, ih.1⟩, ih.2⟩

theorem suit_pieces {text : String} : ∀ ps : List Part, (∀ x ∈ itemsOfAll ps, x.Fits text) →
    Piece.AllSuit id (pieces ps) ∧ ∀ t ∈ Piece.tokensOfAll (pieces ps), t ∈ significantTokens text
  | [], _ => ⟨trivial, fun t ht => by cases ht⟩
  | p :: ps, h => by
    have hp := suits_piece p fun x hx => h x (List.mem_append_left _ hx)
    have hps := suit_pieces ps fun x hx => h x (List.mem_append_right _ hx)
    exact ⟨⟨hp.1, hps.1⟩, fun t ht => (List.mem_append.mp ht).elim (hp.2 t) (hps.2 t)⟩

end

end Part

namespace Nest

variable {n n' : Nest}

/-- When no marker is open. -/
theorem items_of_closed {p : Part} (haround : n.around = []) (hparts : n.parts = [p]) :
    n.items = p.items := by
  simp [items, haround, hparts, itemsAround, Part.itemsOfAll]

theorem items_start (n : Nest) : n.start.items = n.items ++ [.opened n.recorded] := by
  simp [items, start, itemsAround, Part.itemsOfAll]

/-- The items in front of an open node and behind its start. -/
theorem items_open {position : Nat} {before : List Part} {around : List (Nat × List Part)}
    (haround : n.around = (position, before) :: around) :
    n.items = (itemsAround around ++ Part.itemsOfAll before) ++ .opened position :: Part.itemsOfAll n.parts := by
  simp [items, haround, itemsAround]

theorem items_closing (n : Nest) (position : Nat) (before : List Part) (around : List (Nat × List Part))
    (kind : Kind) : (n.closing position before around kind).items =
      (itemsAround around ++ Part.itemsOfAll before) ++
        .start position kind false :: Part.itemsOfAll n.parts ++ [.finish] := by
  simp [items, closing, Part.itemsOfAll, Part.items]

/-- The items in front of a node that is complete, and behind its start. -/
theorem items_split {position : Nat} {kind : Kind} {fronted : Bool} {before inside after : List Part}
    (hparts : n.parts = before ++ .node position kind fronted inside :: after) :
    n.items = (itemsAround n.around ++ Part.itemsOfAll before) ++
      .start position kind fronted :: (Part.itemsOfAll inside ++ [.finish] ++ Part.itemsOfAll after) := by
  simp [items, hparts, Part.itemsOfAll, Part.items]

theorem items_fronting (n : Nest) (before : List Part) (position : Nat) (kind : Kind)
    (inside after : List Part) : (n.fronting before position kind inside after).items =
      (itemsAround n.around ++ Part.itemsOfAll before) ++
        .opened n.recorded :: .start position kind true ::
          (Part.itemsOfAll inside ++ [.finish] ++ Part.itemsOfAll after) := by
  simp [items, fronting, itemsAround, Part.itemsOfAll, Part.items]

/-- All that completing a marker does. -/
theorem of_complete {m : Marker} {kind : Kind} (h : n.complete m kind = some n') :
    ∃ position before around, n.around = (position, before) :: around ∧ m = ⟨UInt32.ofNat position⟩ ∧
      kind.isNode = true ∧ kind ≠ .tombstone ∧ n' = n.closing position before around kind := by
  unfold complete at h
  split at h
  · cases h
  · next innermost before around haround =>
    split at h
    · next hm =>
      exact ⟨innermost, before, around, haround, hm.1, hm.2.1, hm.2.2, (Option.some.inj h).symm⟩
    · cases h

/-- All that putting a marker in front of a node does. -/
theorem of_precede {c : CompletedMarker} (h : n.precede c = some n') :
    ∃ before position inside after, n.parts = before ++ .node position c.kind false inside :: after ∧
      c.position = UInt32.ofNat position ∧ n' = n.fronting before position c.kind inside after := by
  unfold precede at h
  split at h
  · next position kind inside after hparts =>
    have hat : Part.isAt c (.node position kind false inside) = true := by
      have hhead := List.head?_dropWhile_not (!Part.isAt c ·) n.parts
      rw [hparts] at hhead
      simpa using hhead
    obtain ⟨hposition, hkind⟩ : UInt32.ofNat position = c.position ∧ kind = c.kind := by
      simpa [Part.isAt] using hat
    have hsplit := List.takeWhile_append_dropWhile (p := (!Part.isAt c ·)) (l := n.parts)
    rw [hparts] at hsplit
    subst hkind
    exact ⟨_, position, inside, after, hsplit.symm, hposition.symm, (Option.some.inj h).symm⟩
  · cases h

/-- A session is about one text and takes nothing back. -/
structure Grows (n n' : Nest) : Prop where
  text : n'.text = n.text
  recorded : n.recorded ≤ n'.recorded

theorem Grows.refl (n : Nest) : n.Grows n := ⟨rfl, Nat.le_refl _⟩

theorem Grows.trans {n₁ : Nest} (h : n.Grows n₁) (h' : n₁.Grows n') : n.Grows n' :=
  ⟨h'.text.trans h.text, h.recorded.trans h'.recorded⟩

theorem recorded_start (n : Nest) : n.start.recorded = n.recorded + 1 := by
  rw [recorded, items_start, List.length_append, List.length_singleton, recorded]

theorem recorded_closing {position : Nat} {before : List Part} {around : List (Nat × List Part)}
    (haround : n.around = (position, before) :: around) (kind : Kind) :
    (n.closing position before around kind).recorded = n.recorded + 1 := by
  rw [recorded, items_closing, recorded, items_open haround]
  simp only [List.length_append, List.length_cons, List.length_nil]

theorem recorded_fronting {position : Nat} {kind : Kind} {before inside after : List Part}
    (hparts : n.parts = before ++ .node position kind false inside :: after) :
    (n.fronting before position kind inside after).recorded = n.recorded + 1 := by
  rw [recorded, items_fronting, recorded, items_split hparts]
  simp only [List.length_append, List.length_cons]
  omega

theorem grows_start (n : Nest) : n.Grows n.start := ⟨rfl, by rw [recorded_start]; omega⟩

theorem grows_bump (n : Nest) (inImage : Bool) : n.Grows (n.bump inImage) := by
  unfold bump
  split
  · exact .refl _
  · split
    · exact .refl _
    · refine ⟨rfl, ?_⟩
      simp only [recorded, items, Part.itemsOfAll_append, List.length_append]
      omega

theorem grows_error (n : Nest) (message : String) : n.Grows (n.error message) := ⟨rfl, Nat.le_refl _⟩

theorem grows_complete {m : Marker} {kind : Kind} (h : n.complete m kind = some n') : n.Grows n' := by
  obtain ⟨position, before, around, haround, -, -, -, rfl⟩ := of_complete h
  exact ⟨rfl, by rw [recorded_closing haround]; omega⟩

theorem grows_perform {action : Recorder.Action} (h : n.perform action = some n') : n.Grows n' := by
  cases action with
  | start =>
    cases h
    exact n.grows_start
  | bump inImage =>
    cases h
    exact n.grows_bump inImage
  | error message =>
    cases h
    exact n.grows_error message
  | errorAndBump message =>
    exact ((n.grows_start.trans (n.start.grows_error message)).trans (grows_bump _ false)).trans
      (grows_complete h)
  | complete m kind => exact grows_complete h
  | precede c =>
    obtain ⟨before, position, inside, after, hparts, -, rfl⟩ := of_precede h
    exact ⟨rfl, by rw [recorded_fronting hparts]; omega⟩

theorem grows_performAll {actions : List Recorder.Action} (h : n.performAll actions = some n') :
    n.Grows n' := by
  induction actions generalizing n with
  | nil =>
    cases h
    exact .refl _
  | cons action actions ih =>
    obtain ⟨n₁, hn₁, h⟩ := Option.bind_eq_some_iff.mp h
    exact (grows_perform hn₁).trans (ih h)

end Nest

/-- What an entry is in the order of the replay. -/
def Entry.item (position : Nat) : Entry → Item
  | .start k forwardParent =>
    if k = .tombstone ∧ forwardParent = none then .opened position
    else .start position k forwardParent.isSome
  | .token t inImage => .token t inImage
  | .finish => .finish

namespace Entry

theorem event_item (p : Nat) (k : Kind) (forwardParent : Option UInt32) :
    (item p (.start k forwardParent)).event = .start k := by
  simp only [item]
  split
  · next h => rw [h.1, Item.event]
  · rfl

theorem item_start {p : Nat} {k : Kind} (hk : k ≠ .tombstone) (forwardParent : Option UInt32) :
    item p (.start k forwardParent) = .start p k forwardParent.isSome := if_neg fun h => hk h.1

theorem eq_of_item_opened {p i : Nat} {e : Entry} (h : e.item p = .opened i) :
    p = i ∧ e = .tombstone := by
  cases e with
  | start k forwardParent =>
    simp only [item] at h
    split at h
    · next hk =>
      cases h
      exact ⟨rfl, by rw [hk.1, hk.2]; rfl⟩
    · cases h
  | token | finish => cases h

theorem eq_of_item_start {p i : Nat} {k : Kind} {e : Entry} (h : e.item p = .start i k false) :
    p = i ∧ e = .start k none := by
  cases e with
  | start k' forwardParent =>
    simp only [item] at h
    split at h
    · cases h
    · cases forwardParent with
      | none =>
        cases h
        exact ⟨rfl, rfl⟩
      | some d => cases h
  | token | finish => cases h

def token? : Entry → Option Token
  | .token t _ => some t
  | _ => none

theorem filterMap_token?_set {entries : List Entry} {p : Nat} {e e' : Entry} (hp : entries[p]? = some e)
    (he : e.token? = none) (he' : e'.token? = none) :
    (entries.set p e').filterMap Entry.token? = entries.filterMap Entry.token? := by
  induction entries generalizing p with
  | nil => cases hp
  | cons x entries ih =>
    cases p with
    | zero =>
      obtain rfl := Option.some.inj hp
      rw [List.set_cons_zero, List.filterMap_cons_none he, List.filterMap_cons_none he']
    | succ p => rw [List.set_cons_succ, List.filterMap_cons, List.filterMap_cons, ih hp]

end Entry

namespace Recorder

variable {entries entries' : List Entry} {items before after : List Item} {x : Item} {i : Nat} {k : Kind}

def itemAt (entries : List Entry) (p : Nat) : Item := entries[p]?.elim .finish (Entry.item p)

theorem event_itemAt (p : Nat) : (itemAt entries p).event = eventAt entries p := by
  rw [itemAt, eventAt]
  cases entries[p]? with
  | none => rfl
  | some e =>
    cases e with
    | start k forwardParent => exact Entry.event_item p k forwardParent
    | token | finish => rfl

theorem itemAt_congr {p : Nat} (h : entries'[p]? = entries[p]?) : itemAt entries' p = itemAt entries p := by
  rw [itemAt, itemAt, h]

/-- The replay of a record goes through these items. -/
def Lists (entries : List Entry) (items : List Item) : Prop :=
  ∃ blocks, Threads entries blocks ∧ (order blocks).map (itemAt entries) = items

theorem Lists.empty : Lists [] [] := ⟨[], ⟨rfl, by simp, by simp, .nil⟩, rfl⟩

theorem Lists.append (h : Lists entries items) {e : Entry} (he : e.forwardParent? = none) :
    Lists (entries ++ [e]) (items ++ [e.item entries.length]) := by
  obtain ⟨blocks, hthreads, rfl⟩ := h
  refine ⟨_, hthreads.append he, ?_⟩
  have hlast : itemAt (entries ++ [e]) entries.length = e.item entries.length := by simp [itemAt]
  have hold : (order blocks).map (itemAt (entries ++ [e])) = (order blocks).map (itemAt entries) := by
    refine List.map_congr_left fun p hp => itemAt_congr ?_
    rw [List.getElem?_append_left (hthreads.mem_order.mp hp)]
  simp only [order, List.flatMap_append, List.flatMap_singleton, List.reverse_singleton,
    List.map_append, List.map_singleton, hlast] at hold ⊢
  rw [hold]

/-- Where an item of the replay stands in the record. -/
theorem Lists.exists_split (h : Lists entries (before ++ x :: after)) :
    ∃ blocks ls p rs e, Threads entries blocks ∧ order blocks = ls ++ p :: rs ∧
      (∀ q ∈ ls ++ rs, q ≠ p) ∧ ls.map (itemAt entries) = before ∧ rs.map (itemAt entries) = after ∧
      entries[p]? = some e ∧ e.item p = x := by
  obtain ⟨blocks, hthreads, hitems⟩ := h
  obtain ⟨ls, tail, hsplit, hls, htail⟩ := List.map_eq_append_iff.mp hitems
  obtain ⟨p, rs, rfl, hp, hrs⟩ := List.map_eq_cons_iff.mp htail
  have hlt : p < entries.length := hthreads.mem_order.mp (by simp [hsplit])
  have hnodup := List.nodup_middle.mp (hsplit ▸ hthreads.nodup_order)
  have hne : ∀ q ∈ ls ++ rs, q ≠ p := by
    rintro q hq rfl
    exact (List.nodup_cons.mp hnodup).1 hq
  refine ⟨blocks, ls, p, rs, _, hthreads, hsplit, hne, hls, hrs, List.getElem?_eq_getElem hlt, ?_⟩
  rwa [itemAt, List.getElem?_eq_getElem hlt] at hp

theorem Lists.complete (h : Lists entries (before ++ .opened i :: after)) (hk : k ≠ .tombstone) :
    entries[i]? = some .tombstone ∧
      Lists (entries.set i (.start k none)) (before ++ .start i k false :: after) := by
  obtain ⟨blocks, ls, p, rs, e, hthreads, hsplit, hne, rfl, rfl, he, hitem⟩ := h.exists_split
  obtain ⟨rfl, rfl⟩ := Entry.eq_of_item_opened hitem
  refine ⟨he, blocks, hthreads.set he, ?_⟩
  have hold (q : Nat) (hq : q ≠ p) : itemAt (entries.set p (.start k none)) q = itemAt entries q :=
    itemAt_congr (List.getElem?_set_ne (Ne.symm hq))
  have hnew : itemAt (entries.set p (.start k none)) p = .start p k false := by
    rw [itemAt, List.getElem?_set_self (List.getElem?_eq_some_iff.mp he).1]
    exact Entry.item_start hk none
  rw [hsplit, List.map_append, List.map_cons, hnew,
    List.map_congr_left fun q hq => hold q (hne q (List.mem_append_left _ hq)),
    List.map_congr_left fun q hq => hold q (hne q (List.mem_append_right _ hq))]

theorem Lists.precede (h : Lists entries (before ++ .start i k false :: after))
    (hfits : entries.length < UInt32.size) : entries[i]? = some (.start k none) ∧
      Lists (precedeAt entries i k)
        (before ++ .opened entries.length :: .start i k true :: after) := by
  obtain ⟨blocks, ls, p, rs, e, hthreads, hsplit, hne, rfl, rfl, he, hitem⟩ := h.exists_split
  obtain ⟨rfl, rfl⟩ := Entry.eq_of_item_start hitem
  obtain ⟨blocks', hthreads', hsplit'⟩ := hthreads.precede he hsplit hfits
  refine ⟨he, blocks', hthreads', ?_⟩
  have hlt := (List.getElem?_eq_some_iff.mp he).1
  have hold (q : Nat) (hq : q ∈ ls ++ rs) : itemAt (precedeAt entries p k) q = itemAt entries q := by
    have hq' : q ∈ order blocks := by
      rw [hsplit]
      exact List.mem_append.mpr ((List.mem_append.mp hq).imp_right (List.mem_cons_of_mem _))
    exact itemAt_congr (getElem?_precedeAt_old hlt (hthreads.mem_order.mp hq') (hne q hq))
  have hself : itemAt (precedeAt entries p k) p = .start p k true := by
    rw [itemAt, getElem?_precedeAt hlt, if_pos rfl]
    exact if_neg fun h => by cases h.2
  have hnew : itemAt (precedeAt entries p k) entries.length = .opened entries.length := by
    rw [itemAt, getElem?_precedeAt hlt, if_neg (by omega), if_pos rfl]
    rfl
  rw [hsplit', List.map_append, List.map_cons, List.map_cons, hself, hnew,
    List.map_congr_left fun q hq => hold q (List.mem_append_left _ hq),
    List.map_congr_left fun q hq => hold q (List.mem_append_right _ hq)]

theorem Lists.length_eq (h : Lists entries items) : items.length = entries.length := by
  obtain ⟨blocks, hthreads, rfl⟩ := h
  rw [List.length_map, ((perm_order blocks).trans hthreads.perm).length_eq, List.length_range]

/-- A record is what a session made of it so far. -/
structure Follows (r : Recorder) (n : Nest) : Prop where
  text : r.text = n.text
  ahead : r.ahead = n.ahead
  errors : r.errors = n.errors
  armed : r.armed = n.around.map fun opened => ⟨UInt32.ofNat opened.1⟩
  lists : Lists r.entries n.items
  tokens : r.entries.filterMap Entry.token? ++ n.ahead = tokenize n.text
  fits : ∀ x ∈ n.items, x.Fits n.text

section

variable {r : Recorder} {n n' : Nest}

theorem Follows.length_entries (h : Follows r n) : r.entries.length = n.recorded :=
  h.lists.length_eq.symm

theorem Follows.start (h : Follows r n) :
    r.start.1 = ⟨UInt32.ofNat n.recorded⟩ ∧ Follows r.start.2 n.start := by
  refine ⟨by rw [Recorder.start, h.length_entries], h.text, h.ahead, h.errors, ?_, ?_, ?_, ?_⟩
  · simp [Recorder.start, Nest.start, h.length_entries, h.armed]
  · rw [Nest.items_start, ← h.length_entries]
    exact h.lists.append rfl
  · simp only [Recorder.start, List.filterMap_append]
    exact (List.append_nil _).symm ▸ h.tokens
  · intro x hx
    rw [Nest.items_start, List.mem_append, List.mem_singleton] at hx
    rcases hx with hx | rfl
    · exact h.fits x hx
    · trivial

theorem Follows.bump (h : Follows r n) (inImage : Bool) : Follows (r.bump inImage) (n.bump inImage) := by
  unfold Recorder.bump Nest.bump
  rw [h.ahead]
  have htokens := h.tokens
  cases hahead : n.ahead with
  | nil => exact h
  | cons t ahead =>
    rw [hahead] at htokens
    dsimp only
    by_cases ht : t.kind = .eof
    · rw [if_pos ht, if_pos ht]
      exact h
    · rw [if_neg ht, if_neg ht]
      have hitems : Nest.items { n with ahead, parts := n.parts ++ [.token t inImage] } =
          n.items ++ [.token t inImage] := by
        simp [Nest.items, Part.itemsOfAll, Part.items]
      refine ⟨h.text, rfl, h.errors, h.armed, ?_, ?_, ?_⟩
      · rw [hitems]
        exact h.lists.append rfl
      · rw [← htokens]
        simp [Entry.token?]
      · intro x hx
        rw [hitems, List.mem_append, List.mem_singleton] at hx
        rcases hx with hx | rfl
        · exact h.fits x hx
        · change t ∈ significantTokens n.text
          rw [significantTokens_eq_filter]
          exact List.mem_filter.mpr ⟨htokens ▸ List.mem_append_right _ List.mem_cons_self, by simpa using ht⟩

theorem Follows.error (h : Follows r n) (message : String) : Follows (r.error message) (n.error message) := by
  refine ⟨h.text, h.ahead, ?_, h.armed, h.lists, h.tokens, h.fits⟩
  have hspan : r.aheadSpan = (n.ahead.head?.map Token.span).getD (.empty n.text.utf8ByteSize) := by
    rw [aheadSpan, h.ahead, h.text]
    cases n.ahead <;> rfl
  rw [Recorder.error, Nest.error, h.errors, hspan]

/-- A marker tells the position of an entry. -/
theorem toNat_ofNat_of_getElem? {p : Nat} {e : Entry} (hp : entries[p]? = some e)
    (hfits : entries.length ≤ UInt32.size) : (UInt32.ofNat p).toNat = p :=
  UInt32.toNat_ofNat_of_lt' (Nat.lt_of_lt_of_le (List.getElem?_eq_some_iff.mp hp).1 hfits)

theorem Follows.complete (h : Follows r n) {position : Nat} {before : List Part}
    {around : List (Nat × List Part)} {kind : Kind} (haround : n.around = (position, before) :: around)
    (hkind : kind.isNode = true) (hne : kind ≠ .tombstone) (hfits : n.recorded < UInt32.size) : ∃ r',
      r.complete ⟨UInt32.ofNat position⟩ kind = .ok (⟨UInt32.ofNat position, kind⟩, r') ∧
        Follows r' (n.closing position before around kind) := by
  have hitems := Nest.items_open haround
  obtain ⟨hfound, hlists⟩ := (hitems ▸ h.lists).complete hne
  have hposition := toNat_ofNat_of_getElem? hfound (by rw [h.length_entries]; omega)
  refine ⟨{ r with
    entries := r.entries.set position (.start kind none) ++ [.finish]
    armed := around.map fun opened => ⟨UInt32.ofNat opened.1⟩ }, ?_, ?_⟩
  · simp [Recorder.complete, updateStart, hposition, hfound, Entry.tombstone, h.armed, haround, bind,
      Except.bind, pure, Except.pure]
  · refine ⟨h.text, h.ahead, h.errors, rfl, ?_, ?_, ?_⟩
    · rw [Nest.items_closing]
      exact hlists.append (e := .finish) rfl
    · rw [List.filterMap_append, Entry.filterMap_token?_set hfound rfl rfl]
      exact (List.append_nil _).symm ▸ h.tokens
    · have hall := h.fits
      rw [hitems] at hall
      intro x hx
      simp only [Nest.items_closing, List.mem_append, List.mem_cons, List.not_mem_nil, or_false]
        at hx hall
      rcases hx with ((hx | hx) | rfl | hx) | rfl
      · exact hall x (.inl (.inl hx))
      · exact hall x (.inl (.inr hx))
      · exact ⟨hkind, hne⟩
      · exact hall x (.inr (.inr hx))
      · trivial

/-- The distance of two positions that markers tell. -/
theorem distance_eq {p q : Nat} (hp : p ≤ q) (hq : q < UInt32.size) :
    distance (UInt32.ofNat p) (UInt32.ofNat q) = .ok (UInt32.ofNat (q - p)) := by
  have hle : UInt32.ofNat p ≤ UInt32.ofNat q := by
    rw [UInt32.le_iff_toNat_le, UInt32.toNat_ofNat_of_lt' hq, UInt32.toNat_ofNat_of_lt' (by omega)]
    exact hp
  rw [distance, if_pos hle, UInt32.ofNat_sub hp]

theorem Follows.precede (h : Follows r n) {before inside after : List Part} {position : Nat} {kind : Kind}
    (hparts : n.parts = before ++ .node position kind false inside :: after)
    (hfits : n.recorded < UInt32.size) : ∃ r',
      r.precede ⟨UInt32.ofNat position, kind⟩ = .ok (⟨UInt32.ofNat n.recorded⟩, r') ∧
        Follows r' (n.fronting before position kind inside after) := by
  have hitems := Nest.items_split hparts
  have hlength : r.entries.length < UInt32.size := by rwa [h.length_entries]
  obtain ⟨hfound, hlists⟩ := (hitems ▸ h.lists).precede hlength
  have hlt := (List.getElem?_eq_some_iff.mp hfound).1
  have hposition := toNat_ofNat_of_getElem? hfound (by omega)
  have hstart : (r.entries ++ [Entry.tombstone])[position]? = some (.start kind none) := by
    rw [List.getElem?_append_left hlt, hfound]
  refine ⟨{ r.start.2 with entries := precedeAt r.entries position kind }, ?_, ?_⟩
  · have hdistance := distance_eq (Nat.le_of_lt hlt) hlength
    simp [Recorder.precede, Recorder.start, updateStart, hposition, hstart, hdistance, ← h.length_entries,
      precedeAt, bind, Except.bind, pure, Except.pure]
  · refine ⟨h.text, h.ahead, h.errors, ?_, ?_, ?_, ?_⟩
    · simp [Recorder.start, Nest.fronting, h.length_entries, h.armed]
    · rw [Nest.items_fronting, ← h.length_entries]
      exact hlists
    · rw [precedeAt, Entry.filterMap_token?_set hstart rfl rfl, List.filterMap_append]
      exact (List.append_nil _).symm ▸ h.tokens
    · have hall := h.fits
      rw [hitems] at hall
      intro x hx
      simp only [Nest.items_fronting, List.mem_append, List.mem_cons, List.not_mem_nil, or_false]
        at hx hall
      rcases hx with (hx | hx) | rfl | rfl | hx
      · exact hall x (.inl (.inl hx))
      · exact hall x (.inl (.inr hx))
      · trivial
      · exact hall (.start position kind false) (.inr (.inl rfl))
      · exact hall x (.inr (.inr hx))

/-- What completing a marker is for the record, when the session allows it. -/
theorem Follows.complete_of (h : Follows r n) {m : Marker} {kind : Kind} (hn : n.complete m kind = some n')
    (hfits : n'.recorded ≤ UInt32.size) :
    ∃ r', r.complete m kind = .ok (⟨m.position, kind⟩, r') ∧ Follows r' n' := by
  obtain ⟨position, before, around, haround, rfl, hkind, hne, rfl⟩ := Nest.of_complete hn
  rw [Nest.recorded_closing haround] at hfits
  exact h.complete haround hkind hne hfits

theorem Follows.perform (h : Follows r n) {action : Action} (hn : n.perform action = some n')
    (hfits : n'.recorded ≤ UInt32.size) : ∃ r', r.perform action = .ok r' ∧ Follows r' n' := by
  cases action with
  | start =>
    cases hn
    exact ⟨_, rfl, h.start.2⟩
  | bump inImage =>
    cases hn
    exact ⟨_, rfl, h.bump inImage⟩
  | error message =>
    cases hn
    exact ⟨_, rfl, h.error message⟩
  | errorAndBump message =>
    obtain ⟨r', hcomplete, h'⟩ := ((h.start.2.error message).bump false).complete_of hn hfits
    rw [← h.start.1] at hcomplete
    refine ⟨r', ?_, h'⟩
    rw [Recorder.perform, errorAndBump]
    change (((r.start.2.error message).bump false).complete r.start.1 .error >>= _) = _
    rw [hcomplete]
    rfl
  | complete m kind =>
    obtain ⟨r', hcomplete, h'⟩ := h.complete_of hn hfits
    exact ⟨r', by simp [Recorder.perform, hcomplete, Except.map], h'⟩
  | precede c =>
    obtain ⟨before, position, inside, after, hparts, hposition, rfl⟩ := Nest.of_precede hn
    rw [Nest.recorded_fronting hparts] at hfits
    obtain ⟨r', hprecede, h'⟩ := h.precede hparts hfits
    have hc : c = ⟨UInt32.ofNat position, c.kind⟩ := by rw [← hposition]
    exact ⟨r', by rw [Recorder.perform, hc, hprecede]; rfl, h'⟩

/-- A well-nested session never fails as long as markers can tell all entries. -/
theorem Follows.performAll (h : Follows r n) {actions : List Action}
    (hn : n.performAll actions = some n') (hfits : n'.recorded ≤ UInt32.size) :
    ∃ r', r.performAll actions = .ok r' ∧ Follows r' n' := by
  induction actions generalizing r n with
  | nil =>
    cases hn
    exact ⟨r, rfl, h⟩
  | cons action actions ih =>
    obtain ⟨n₁, hn₁, hn⟩ := Option.bind_eq_some_iff.mp hn
    obtain ⟨r₁, hr₁, h₁⟩ := h.perform hn₁ ((Nest.grows_performAll hn).recorded.trans hfits)
    obtain ⟨r', hr', h'⟩ := ih h₁ hn
    refine ⟨r', ?_, h'⟩
    rw [Recorder.performAll, List.foldlM_cons, hr₁]
    exact hr'

end

section

variable {σ : Type} {r : Recorder} {n : Nest} {position : Nat} {kind : Kind} {fronted : Bool}
  {inside : List Part}

/-- A record of a session that is over is replayed as the events of its outermost node. -/
theorem Follows.finish_eq (h : Follows r n) (haround : n.around = [])
    (hparts : n.parts = [.node position kind fronted inside]) (f : Finalizer σ) (m : σ) :
    r.finish f m = ((buildTree n.text f m
      (Piece.eventsOfAll [.node kind (Part.pieces inside)])).mapError Halt.construction).map
        fun (tree, m) => (⟨tree, n.errors⟩, m) := by
  obtain ⟨blocks, hthreads, hitems⟩ := h.lists
  have hwhole := Nest.items_of_closed haround hparts
  have hcomplete : Complete r.entries := by
    rintro p k forwardParent hp rfl
    have hat : itemAt r.entries p = (Entry.start .tombstone forwardParent).item p := by
      rw [itemAt, hp]
      rfl
    have hmem : (Entry.start .tombstone forwardParent).item p ∈ n.items := by
      rw [← hitems, ← hat]
      exact List.mem_map_of_mem (hthreads.mem_order.mpr (List.getElem?_eq_some_iff.mp hp).1)
    cases forwardParent with
    | none => exact Part.opened_notMem p (.node position kind fronted inside) (hwhole ▸ hmem)
    | some d => exact (h.fits _ hmem).2 rfl
  have hevents : eventsOf r.entries blocks = Piece.eventsOfAll [.node kind (Part.pieces inside)] := by
    have hevent : eventAt r.entries = Item.event ∘ itemAt r.entries :=
      funext fun p => (event_itemAt p).symm
    rw [eventsOf, hevent, ← List.map_map, hitems, hwhole, Part.events_piece, Part.piece,
      Piece.eventsOfAll, Piece.eventsOfAll, List.append_nil]
  have harmed : r.armed = [] := by rw [h.armed, haround, List.map_nil]
  rw [finish_eq_of_threads hthreads hcomplete harmed, h.text, h.errors, hevents]

/-- With a finalizer that changes nothing it describes the tree of this node. -/
theorem Follows.finish (h : Follows r n) (haround : n.around = [])
    (hparts : n.parts = [.node position kind fronted inside]) {f : Finalizer σ} (hf : f.Watches) (m : σ) :
    ∃ m', r.finish f m = .ok (⟨.ofBranch n.text (Piece.tree kind (Part.pieces inside)), n.errors⟩, m') := by
  have hwhole := Nest.items_of_closed haround hparts
  obtain ⟨hsuits, htokens⟩ := Part.suits_piece (.node position kind fronted inside) (hwhole ▸ h.fits)
  have hbuild := buildTree_suits Finalizer.inert_implements Sprout.local_id n.text () hsuits
    fun t ht => stop_le_of_mem (htokens t ht)
  rw [Branch.rebuilt_id] at hbuild
  obtain ⟨m', hwatched⟩ := buildTree_watched hf hbuild m
  refine ⟨m', ?_⟩
  rw [h.finish_eq haround hparts, hwatched]
  rfl

end

end Recorder

end JavaSyntax
