import RegisterLayout.Placement

/-!
# Records of placed nodes

Which nodes a placing finished, and where it put them.  A node is finished after its children;
where the placing of a tree fails, the nodes finished before the fault are on record all the
same.  The items of a bit field are not on record.

Principal definitions: `Field.finishedNodes`, `PlacementRecord`, `Field.placementRecords`.
-/

namespace RegisterLayout

namespace Field

/-- The node itself, if it can be placed. -/
def finishedNode (path : Path) (index : Nat) (start : Number) (f : Field) : List Field :=
  match place path index start f with
  | .ok (placed, _) => [placed]
  | .error _ => []

mutual

/-- The nodes of a tree that are placed from an offset on, up to the first fault. -/
def finishedNodes (path : Path) (index : Nat) (start : Number) : Field → List Field
  | struct h fields =>
    (match nodeName h path index with
      | .ok (_, inner) => finishedFields inner 0 start fields
      | .error _ => [])
      ++ finishedNode path index start (struct h fields)
  | union h members =>
    (match nodeName h path index with
      | .ok (_, inner) => if h.givenName?.isNone then [] else finishedMembers inner 0 start members
      | .error _ => [])
      ++ finishedNode path index start (union h members)
  | f => finishedNode path index start f
termination_by structural f => f

def finishedFields (path : Path) (index : Nat) (start : Number) : List Field → List Field
  | [] => []
  | f :: fs =>
    if (fieldFault? index start f).isSome then []
    else
      finishedNodes path index start f ++ match place path index start f with
        | .ok (_, stop) => finishedFields path (index + 1) stop fs
        | .error _ => []
termination_by structural fs => fs

def finishedMembers (path : Path) (index : Nat) (start : Number) : List Field → List Field
  | [] => []
  | f :: fs =>
    finishedNodes path index start f ++
      if (place path index start f).toBool && (memberFault? [] f).isNone
      then finishedMembers path (index + 1) start fs
      else []
termination_by structural fs => fs

end

end Field

/-- Where a node was put. -/
structure PlacementRecord where
  fullName : Text
  kind : String
  byteOffset : Int
  bits : Int
  align : Int
  deriving DecidableEq, Repr

/-- The whole part of a number. -/
private def wholeOf (v : Option Value) : Int := ((v.bind Value.number?).getD 0).truncate

/-- The record of a placed node, in whole numbers. -/
def PlacementRecord.ofField (f : Field) : PlacementRecord where
  fullName := f.fullName
  kind := f.kindName
  byteOffset := wholeOf f.header.position.byteOffset
  bits := wholeOf f.sizeBits.toOption
  align := wholeOf f.header.position.align

/-- The records of a whole tree, in the order in which its nodes are finished.  A root whose
offset is refused is not placed at all. -/
def Field.placementRecords (root : Field) : List PlacementRecord :=
  match root.checkRootOffset with
  | .ok () => (root.finishedNodes [] 0 0).map .ofField
  | .error _ => []

end RegisterLayout
