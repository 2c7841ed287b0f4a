import Joinery.Exchange.Record
import Joinery.Review.Report
/-!
# Reports in JSON
-/

namespace Joinery.Exchange

open Review

def severityName : Severity → String
  | .error => "Error"
  | .warning => "Warning"

def severities : List (String × Severity) :=
  [.error, .warning].map fun s => (severityName s, s)

def topics : List (String × Topic) := Topic.all.map fun t => (t.name, t)

def writeOptional {β : Type} (write : β → Json) : Option β → Json
  | some value => write value
  | none => .null

def writeFinding (f : Finding) : Json :=
  .ofMembers
    [("code", .ofText f.topic.name), ("severity", .ofText (severityName f.severity)),
      ("message", .ofText f.message), ("constraint", writeOptional .ofText f.constraint)]

def readFinding? (j : Json) : Option Finding := do
  let f ← fields? ["code", "severity", "message", "constraint"] j
  return {
    topic := ← f.required "code" (choice? topics)
    severity := ← f.required "severity" (choice? severities)
    message := ← f.required "message" text?
    constraint := ← f.optional "constraint" text? }

def writeReport (r : Report) : Json :=
  .ofMembers
    [("is_valid", .bool r.isValid), ("errors", .array (r.errors.map writeFinding)),
      ("warnings", .array (r.warnings.map writeFinding)),
      ("degrees_of_freedom", .ofInt r.freedom), ("structural_rank", writeOptional .ofNat r.rank)]

def readReport? (j : Json) : Option Report := do
  let f ← fields? ["is_valid", "errors", "warnings", "degrees_of_freedom", "structural_rank"] j
  return {
    isValid := ← f.required "is_valid" bool?
    errors := ← f.required "errors" (list? readFinding?)
    warnings := ← f.required "warnings" (list? readFinding?)
    freedom := ← f.required "degrees_of_freedom" integer?
    rank := ← f.optional "structural_rank" count? }

end Joinery.Exchange
