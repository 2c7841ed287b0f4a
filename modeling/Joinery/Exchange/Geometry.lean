import Joinery.Assembly.IdMap
import Joinery.Exchange.Record
import Joinery.Space.Mirror
import Joinery.Space.Orientation
/-!
# Points, angles and planes in JSON
-/

namespace Joinery.Exchange

variable {α : Type} (form : NumberForm α)

def writePoint (p : Point α) : Json :=
  .ofMembers [("x", form.write p.x), ("y", form.write p.y), ("z", form.write p.z)]

def readPoint? (j : Json) : Option (Point α) := do
  let f ← fields? ["x", "y", "z"] j
  return ⟨← f.required "x" form.read, ← f.required "y" form.read, ← f.required "z" form.read⟩

def writeDisplacement (d : Displacement α) : Json := writePoint form ⟨d.x, d.y, d.z⟩

def readDisplacement? (j : Json) : Option (Displacement α) :=
  (readPoint? form j).map fun p => ⟨p.x, p.y, p.z⟩

def writeAngles (e : EulerAngles α) : Json :=
  .ofMembers
    [("roll", form.write e.roll), ("pitch", form.write e.pitch), ("yaw", form.write e.yaw)]

def readAngles? (j : Json) : Option (EulerAngles α) := do
  let f ← fields? ["roll", "pitch", "yaw"] j
  return ⟨← f.required "roll" form.read, ← f.required "pitch" form.read,
    ← f.required "yaw" form.read⟩

def axisNames : List (String × Axis) := [("x", .x), ("y", .y), ("z", .z)]

def axisName : Axis → String
  | .x => "x"
  | .y => "y"
  | .z => "z"

def writePlane (m : MirrorPlane α) : Json :=
  .ofMembers [("axis", .ofText (axisName m.axis)), ("offset", form.write m.offset)]

/-- The offset may be missing, and is zero then. The axis is read by `axis?`. -/
def readPlaneWith? [Arithmetic α] (axis? : Json → Option Axis) (j : Json) :
    Option (MirrorPlane α) := do
  let f ← fields? ["axis", "offset"] j
  return ⟨← f.required "axis" axis?, ← f.withDefault "offset" form.read 0⟩

def readPlane? [Arithmetic α] : Json → Option (MirrorPlane α) :=
  readPlaneWith? form (choice? axisNames)

/-! ## Maps -/

/-- A map as an object. -/
def writeMap {β : Type} (write : β → Json) (m : IdMap β) : Json :=
  .ofMembers (m.entries.map fun e => (e.1, write e.2))

/-- Of several values under one name the last counts. -/
def readMap? {β : Type} (read : Json → Option β) : Json → Option (IdMap β)
  | .object members => do
    let members ← members? members
    let entries ← members.mapM fun m => (read m.2).map fun value => (m.1, value)
    return .ofList entries
  | _ => none

end Joinery.Exchange
