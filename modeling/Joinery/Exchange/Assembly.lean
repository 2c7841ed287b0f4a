import Joinery.Assembly.Basic
import Joinery.Exchange.Constraint
/-!
# Assemblies in JSON

A component without properties is written without them. Identifiers and stamps
are read in all their spellings and written in one.
-/

namespace Joinery.Exchange

variable {α : Type} (form : NumberForm α)

def writeComponent (c : Component α) : Json :=
  .ofMembers <|
    [("id", .ofText c.id), ("position", writePoint form c.position),
      ("orientation", writeAngles form c.orientation)]
      ++ if c.properties.isEmpty then [] else [("properties", writeMap form.write c.properties)]

def readComponent? [Scalar α] (j : Json) : Option (Component α) := do
  let f ← fields? ["id", "position", "orientation", "properties"] j
  return {
    id := ← f.required "id" text?
    position := ← f.required "position" (readPoint? form)
    orientation := ← f.withDefault "orientation" (readAngles? form) .identity
    properties := ← f.withDefault "properties" (readMap? form.read) .empty }

def writeMetadata (m : Metadata) : Json :=
  .ofMembers
    [("id", .ofText m.id.render), ("name", .ofText m.name), ("version", .ofNat m.version.toNat),
      ("created", .ofText m.created.render), ("modified", .ofText m.modified.render)]

def readMetadata? (j : Json) : Option Metadata := do
  let f ← fields? ["id", "name", "version", "created", "modified"] j
  let stamp? (j : Json) := (text? j).bind Stamp.parse?
  return {
    id := ← f.required "id" fun j => (text? j).bind Uuid.parse?
    name := ← f.required "name" text?
    version := (← f.required "version" (natBelow? 4294967296)).toUInt32
    created := ← f.required "created" stamp?
    modified := ← f.required "modified" stamp? }

def writeAssembly (a : Assembly α) : Json :=
  .ofMembers
    [("metadata", writeMetadata a.metadata),
      ("components", .array (a.components.map (writeComponent form))),
      ("constraints", .array (a.constraints.map (writeConstraint form)))]

/-- The constraints stand two levels deep. -/
def readAssembly? [Scalar α] (j : Json) : Option (Assembly α) := do
  let f ← fields? ["metadata", "components", "constraints"] j
  return {
    metadata := ← f.required "metadata" readMetadata?
    components := ← f.withDefault "components" (list? (readComponent? form)) []
    constraints := ← f.withDefault "constraints" (list? (readConstraint? form 2)) [] }

end Joinery.Exchange
