import VoxelQuery.Predicate.Basic
import VoxelQuery.Query.PropertyItem
import VoxelQuery.Query.Segment
import VoxelQuery.Query.Token

/-! From query texts to predicates. Segments are alternatives, the terms of a segment must all
hold, and a bang negates the one term behind it. The first error in the order of tokens is the one
reported, save that a whole segment is scanned before its first name is looked up. -/
namespace VoxelQuery

/-- What the names in a query stand for. -/
structure Environment where
  identifier? : String → Option String
  typeTag? : String → Option TypeTag
  material? : String → Option Material
  query? : String → Option Predicate
  defaultProperty : Option String

namespace Environment

/-- The property that values without a name belong to, unless an environment says otherwise. -/
def standardProperty : String := "variant"

variable (env : Environment)

/-- The name of the property that an item asks for. -/
def propertyName (item : PropertyItem) : String :=
  item.name.getD (env.defaultProperty.getD standardProperty)

def itemPredicate (item : String) : Except TextFault Predicate :=
  match PropertyItem.parse? item with
  | some found => .ok (.ofProperty (env.propertyName found) found.values)
  | none => .error (.itemInvalid item)

/-- Every item of a group must hold. -/
def groupPredicate (interior : String) : Except TextFault Predicate :=
  ((groupItems interior).mapM env.itemPredicate).map .allOf

def markedPredicate (sigil : Sigil) (name : String) : Except QueryFault Predicate :=
  match sigil with
  | .typeTag =>
    (env.typeTag? name).elim (.error (.unknownTypeTag name)) fun t => .ok (.typeTag t false)
  | .strictTypeTag =>
    (env.typeTag? name).elim (.error (.unknownTypeTag name)) fun t => .ok (.typeTag t true)
  | .material =>
    (env.material? name).elim (.error (.unknownMaterial name)) fun m => .ok (.material m)
  | .reference => (env.query? name).elim (.error (.unknownQuery name)) .ok

/-- The part of a segment from a token on. -/
def remainder (segment : String) (t : Token) : String :=
  String.ofList (Text.dropUnits t.offset segment.toList)

/-- A bang is no term, so it has no predicate of its own. -/
def termPredicate (segment : String) (t : Token) : Except QueryFault Predicate :=
  match t.lexeme with
  | .bang => .error (.malformed (remainder segment t) .bangRepeated)
  | .bare name =>
    (env.identifier? name).elim (.error (.unknownBlock name)) fun id => .ok (.block id)
  | .marked sigil name => env.markedPredicate sigil name
  | .group interior =>
    match env.groupPredicate interior with
    | .ok p => .ok p
    | .error fault => .error (.malformed (remainder segment t) fault)

/-- The predicates of the terms, with the bang that waits for its term. -/
def termPredicates (segment : String) :
    Option Token → List Token → Except QueryFault (List Predicate)
  | none, [] => .ok []
  | some bang, [] => .error (.malformed (remainder segment bang) .bangWithoutTerm)
  | waiting, t :: rest =>
    if t.lexeme = .bang ∧ waiting = none then termPredicates segment (some t) rest
    else do
      let p ← env.termPredicate segment t
      let later ← termPredicates segment none rest
      .ok ((if waiting.isSome then .negation p else p) :: later)

def segmentPredicate (segment : String) : Except QueryError Predicate := do
  let found ← tokens segment
  match env.termPredicates segment none found with
  | .ok terms => .ok (.allOf terms)
  | .error fault => .error ⟨segment, fault⟩

def compile (text : String) : Except QueryError Predicate :=
  ((segments text).mapM env.segmentPredicate).map .anyOf

end Environment

end VoxelQuery
