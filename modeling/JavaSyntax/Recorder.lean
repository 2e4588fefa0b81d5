import JavaSyntax.Parse

namespace JavaSyntax

/-- One entry of a record. The start of a node that got a marker in front of it tells how far behind it the
start of that marker stands. -/
inductive Entry where
  | start (kind : Kind) (forwardParent : Option UInt32)
  | token (token : Token) (inImage : Bool)
  | finish
  deriving DecidableEq

namespace Entry

/-- The start of a node that has no kind yet, or that was replayed. -/
def tombstone : Entry := .start .tombstone none

/-- How far behind a start that of the marker in front of it stands. -/
def forwardParent? : Entry → Option UInt32
  | .start _ forwardParent => forwardParent
  | _ => none

@[simp] theorem forwardParent?_tombstone : tombstone.forwardParent? = none := rfl

@[simp] theorem forwardParent?_start (k : Kind) (p : Option UInt32) :
    (start k p).forwardParent? = p := rfl

end Entry

/-- A node that was started. Positions have 32 bits: the start of an entry further on is taken for an earlier
one. -/
structure Marker where
  position : UInt32
  deriving DecidableEq

/-- A node that was completed. -/
structure CompletedMarker where
  position : UInt32
  kind : Kind
  deriving DecidableEq

/-- What is recorded of a text while it is read. -/
structure Recorder where
  text : String
  ahead : List Token
  entries : List Entry
  errors : List Diagnostic
  /-- The markers that were not completed yet. None may be left in the end. -/
  armed : List Marker

namespace Recorder

/-- Steps that a record does not allow. -/
inductive Fault where
  /-- The text is too long for offsets of 32 bits. -/
  | longText
  | outOfRange (error : OutOfRange)
  | notStart
  | negativeDistance
  /-- A rule was used at a token that it does not start with. -/
  | assertion (expected found : Kind)
  | dropped (marker : Marker)
  deriving DecidableEq

def ofText (text : String) : Except Fault Recorder :=
  if text.utf8ByteSize < UInt32.size then .ok ⟨text, tokenize text, [], [], []⟩ else .error .longText

/-- Where the next token stands. -/
def aheadSpan (r : Recorder) : Span :=
  match r.ahead with
  | [] => .empty r.text.utf8ByteSize
  | t :: _ => t.span

/-- Reads the next token. The end of the input stays ahead. -/
def bump (r : Recorder) (inImage : Bool) : Recorder :=
  match r.ahead with
  | [] => r
  | t :: ahead =>
    if t.kind = .eof then r else { r with ahead, entries := r.entries ++ [.token t inImage] }

def start (r : Recorder) : Marker × Recorder :=
  let m : Marker := ⟨UInt32.ofNat r.entries.length⟩
  (m, { r with entries := r.entries ++ [.tombstone], armed := m :: r.armed })

/-- Reports an error at the next token. -/
def error (r : Recorder) (message : String) : Recorder :=
  { r with errors := r.errors ++ [⟨message, r.aheadSpan⟩] }

def updateStart (r : Recorder) (position : UInt32)
    (f : Kind → Option UInt32 → Except Fault Entry) : Except Fault Recorder :=
  match r.entries[position.toNat]? with
  | none => .error (.outOfRange ⟨r.entries.length, position.toNat⟩)
  | some (.start kind forwardParent) => do
    let entry ← f kind forwardParent
    pure { r with entries := r.entries.set position.toNat entry }
  | some _ => .error .notStart

def complete (r : Recorder) (m : Marker) (kind : Kind) :
    Except Fault (CompletedMarker × Recorder) := do
  let r ← r.updateStart m.position fun _ forwardParent => pure (.start kind forwardParent)
  pure (⟨m.position, kind⟩, { r with entries := r.entries ++ [.finish], armed := r.armed.erase m })

/-- How far behind the one position the other is. -/
def distance (front behind : UInt32) : Except Fault UInt32 :=
  if front ≤ behind then .ok (behind - front) else .error .negativeDistance

/-- Starts a node in front of one that is complete. -/
def precede (r : Recorder) (c : CompletedMarker) : Except Fault (Marker × Recorder) := do
  let (m, r) := r.start
  let r ← r.updateStart c.position fun kind _ => do
    let d ← distance c.position m.position
    pure (.start kind (some d))
  pure (m, r)

/-- Reports an error and puts the token it is about into a node of its own. -/
def errorAndBump (r : Recorder) (message : String) : Except Fault Recorder := do
  let (m, r) := r.start
  let (_, r) ← ((r.error message).bump false).complete m .error
  pure r

/-- Why a replay stopped. -/
inductive Halt (σ : Type) where
  | record (fault : Fault)
  | construction (failure : Failure σ)

/-- Follows the starts that were put in front of the one at a position, and leaves tombstones in
their places. -/
def unwind (entries : List Entry) (position : Nat) :
    Option UInt32 → Except Fault (List Kind × List Entry)
  | none => .ok ([], entries)
  | some distance =>
    match _found : entries[position + distance.toNat]? with
    | none => .error (.outOfRange ⟨entries.length, position + distance.toNat⟩)
    | some (.start kind forwardParent) => do
      let (kinds, entries) ← unwind (entries.set (position + distance.toNat) .tombstone)
        (position + distance.toNat) forwardParent
      pure (if kind = .tombstone then kinds else kind :: kinds, entries)
    | some _ => .error .notStart
termination_by forwardParent =>
  entries.countP (·.forwardParent?.isSome) + forwardParent.toList.length
decreasing_by
  obtain ⟨hlt, he⟩ := List.getElem?_eq_some_iff.mp _found
  rw [List.countP_set hlt, he]
  simp only [Entry.forwardParent?_start, Entry.forwardParent?_tombstone, Option.isSome_none,
    Bool.false_eq_true, if_false, Option.toList_some, List.length_singleton]
  cases forwardParent with
  | none => simp
  | some d =>
    have : 0 < entries.countP (·.forwardParent?.isSome) :=
      List.countP_pos_iff.mpr ⟨_, he ▸ List.getElem_mem hlt, rfl⟩
    simp only [Option.isSome_some, if_true, Option.toList_some, List.length_singleton]
    omega

/-- Replays the entry at a position. The outermost of the nodes that start there is made first. -/
def play {σ : Type} (s : List Entry × Replay σ) (position : Nat) :
    Except (Halt σ) (List Entry × Replay σ) :=
  let (entries, replay) := s
  let taken := entries.set position .tombstone
  match entries[position]? with
  | none => .error (.record (.outOfRange ⟨entries.length, position⟩))
  | some (.start kind forwardParent) =>
    if kind = .tombstone then .ok (taken, replay)
    else do
      let (kinds, entries) ← (unwind taken position forwardParent).mapError Halt.record
      let replay ← (((kind :: kinds).reverse.map Event.start).foldlM Replay.step replay).mapError
        Halt.construction
      pure (entries, replay)
  | some (.token t inImage) => do
    let replay ← (replay.step (.token t inImage)).mapError Halt.construction
    pure (taken, replay)
  | some .finish => do
    let replay ← (replay.step .finish).mapError Halt.construction
    pure (taken, replay)

/-- Builds the tree of a record, closing each node with a finalizer. -/
def finish {σ : Type} (r : Recorder) (finalizer : Finalizer σ) (memory : σ) :
    Except (Halt σ) (Parse × σ) :=
  match r.armed with
  | m :: _ => .error (.record (.dropped m))
  | [] => do
    let (_, replay) ← (List.range r.entries.length).foldlM play
      (r.entries, ⟨.start r.text finalizer memory, [], none⟩)
    let tree ← replay.finish.mapError Halt.construction
    pure (⟨tree, r.errors⟩, replay.builder.memory)

end Recorder

end JavaSyntax
