import LiveMarkup.Part.Patch

set_option autoImplicit false

/-!
Applying deferred values that have settled since they were rendered.
-/

namespace LiveMarkup

/-- What a flush came across. -/
structure FlushReport where
  /-- Outcomes that were applied. -/
  resolved : Nat := 0
  /-- Rejections; what was shown stays. -/
  rejected : Nat := 0
  /-- Values that are still outstanding. -/
  pending : Nat := 0
  deriving DecidableEq, Repr

def FlushReport.isSettled (r : FlushReport) : Bool := r.pending == 0

/-- What a flush gives. After an error the parts are as far as they came. -/
structure Flushed (α : Type) where
  part : α
  world : World
  report : FlushReport
  error : Option RenderError := none

def Flushed.map {α β : Type} (f : α → β) (a : Flushed α) : Flushed β :=
  { part := f a.part, world := a.world, report := a.report, error := a.error }

/-- Applies the outcome of the deferred value that a part waits for. -/
def NodePart.settle (s : Setting) (w : World) (report : FlushReport) (part : NodePart)
    (d : DeferredId) : Flushed NodePart :=
  match s.deferreds.poll d with
  | .waiting => { part, world := w, report := { report with pending := report.pending + 1 } }
  | .rejected =>
    { part := part.withState .empty, world := w.report .rejectedOutcome
      report := { report with rejected := report.rejected + 1 } }
  | .fulfilled value =>
    let applied := part.setValue s (w.report (.appliedOutcome value.kind)) value
    { part := applied.part, world := applied.world, error := applied.error
      report := { report with resolved := report.resolved + 1 } }

mutual

/-- Applies what has settled in a part and below. -/
def NodePart.flush (s : Setting) (w : World) (report : FlushReport) : NodePart → Flushed NodePart
  | .mk start stop (.pending d) => NodePart.settle s w report (.mk start stop (.pending d)) d
  | .mk start stop (.nested template parts) =>
    (Part.flushAll s w report [] parts).map fun ps => .mk start stop (.nested template ps)
  | .mk start stop (.items parts) =>
    (NodePart.flushAll s w report [] parts).map fun ps => .mk start stop (.items ps)
  | .mk start stop state => { part := .mk start stop state, world := w, report }

def NodePart.flushAll (s : Setting) (w : World) (report : FlushReport) (done : List NodePart) :
    List NodePart → Flushed (List NodePart)
  | [] => { part := done.reverse, world := w, report }
  | part :: ps =>
    let flushed := NodePart.flush
      (s.holding (NodePart.heldByAll done ++ NodePart.heldByAll ps)) w report part
    match flushed.error with
    | some _ => flushed.map fun p => done.reverse ++ p :: ps
    | none => NodePart.flushAll s flushed.world flushed.report (flushed.part :: done) ps

def Part.flushAll (s : Setting) (w : World) (report : FlushReport) (done : List Part) :
    List Part → Flushed (List Part)
  | [] => { part := done.reverse, world := w, report }
  | .attribute part :: ps => Part.flushAll s w report (.attribute part :: done) ps
  | .node part :: ps =>
    let flushed := NodePart.flush
      (s.holding (Part.heldByAll done ++ Part.heldByAll ps)) w report part
    match flushed.error with
    | some _ => flushed.map fun p => done.reverse ++ .node p :: ps
    | none => Part.flushAll s flushed.world flushed.report (.node flushed.part :: done) ps

end

end LiveMarkup
