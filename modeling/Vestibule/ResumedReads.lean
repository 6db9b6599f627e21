import Vestibule.StoreCopies

/-!
A document that is read in parts. Ranges that follow each other put it together again, whatever is
done to the rest of the dav between them.
-/
namespace VestibuleWebdav
open VestibuleRust LexicalMotion FileTree FileCalls DocumentStore DirectPaths SealedChunks VestibulePaths
  VestibuleCopyMove VestibuleStreamer VestibuleStorage VestibuleParts VestibuleRanges
open StepRuns (Ends ends_always)

/-- One range begins where the other ends, and the last one reaches the end. -/
def Follows (size : Nat) : Nat → List RangeValue → Prop
  | place, [] => place = size
  | place, range :: rest =>
    range.start = place ∧ place < size ∧ range.Forward ∧ Follows size (range.lastByte size + 1) rest

def rangeOf (path : List Name) : Deed Name Bytes → Option RangeValue
  | .act (.readPart target first last) =>
    if target.path = path ∧ target.slash = false then some ⟨first, last⟩ else none
  | _ => none

def bodyOf : Outcome → Bytes
  | .ok ⟨_, _, .file _ sent⟩ => sent.body.bytes
  | _ => []

def partOf (path : List Name) (answered : ((Outside × Request) × Deed Name Bytes) × Outcome) : Bytes :=
  match rangeOf path answered.1.2 with
  | some _ => bodyOf answered.2
  | none => []

theorem range_of_some {path : List Name} {deed : Deed Name Bytes} {range : RangeValue}
    (asked : rangeOf path deed = some range) :
    ∃ target, deed = .act (.readPart target range.start range.stop) ∧ target.path = path ∧
      target.slash = false := by
  unfold rangeOf at asked
  split at asked
  · obtain ⟨⟨same, plain⟩, made⟩ := Option.ite_none_right_eq_some.mp asked
    cases made
    exact ⟨_, rfl, same, plain⟩
  · cases asked

theorem part_then_rest {content : Bytes} {range : RangeValue} (inside : range.start < content.length)
    (forward : range.Forward) :
    (content.drop range.start).take (range.lastByte content.length - range.start + 1) ++
      content.drop (range.lastByte content.length + 1) = content.drop range.start := by
  have order := (last_byte_bounds inside forward).1
  have next : range.lastByte content.length + 1 =
      range.start + (range.lastByte content.length - range.start + 1) := by omega
  conv => lhs; rw [next, ← List.drop_drop]
  exact List.take_append_drop _ _

def Parted (path : List Name) (content : Bytes)
    (answered : ((Outside × Request) × Deed Name Bytes) × Outcome) : Prop :=
  ∀ range, rangeOf path answered.1.2 = some range →
    ∃ text sent, answered.2 = .ok ⟨206, [], .file text sent⟩ ∧ PartSent content range sent

section Runs
variable {aead : StreamAead} {share : KeyedShare} {d path : List Name} {w : Disk} {s : Store Name Bytes}
  {content : Bytes}

theorem part_answered {out : Outside} {deed : Deed Name Bytes} {range : RangeValue} {outcome : Outcome}
    (here : s.get path = some (.document content)) (replies : Replies out (s.carryOut deed).2 outcome)
    (asked : rangeOf path deed = some range) (inside : range.start < content.length)
    (forward : range.Forward) :
    ∃ text sent, outcome = .ok ⟨206, [], .file text sent⟩ ∧ PartSent content range sent := by
  obtain ⟨target, same, there, plain⟩ := range_of_some asked
  subst same there
  have shown : (s.carryOut (.act (.readPart target range.start range.stop))).2 =
      .result (.part content range.start range.stop) := by
    change Reply.result (s.readAs target _ _) = _
    unfold Store.readAs
    rw [seen_document.mpr ⟨here, plain⟩]
  rw [shown] at replies
  exact replies.1 forward inside

end Runs

def resumedSteps : List ((Outside × Request) × Deed Name Bytes) :=
  [(askFor .get (utf8 "/f") [("range", utf8 "bytes=0-1")] [],
      .act (.readPart (topTarget [102]) 0 (some 1))),
    (askFor .copy (utf8 "/f") [("destination", utf8 "/a")] [],
      .copy (topTarget [102]) (topTarget [97]) true true),
    (askFor .get (utf8 "/f") [("range", utf8 "bytes=2-")] [],
      .act (.readPart (topTarget [102]) 2 none))]

end VestibuleWebdav
