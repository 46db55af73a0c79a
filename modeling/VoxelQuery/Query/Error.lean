import VoxelQuery.Query.Lexeme

/-! Errors of a query text. Each names the segment it was found in, and either the part of the
segment that cannot be read or the name that stands for nothing. -/
namespace VoxelQuery

inductive QueryFault where
  | malformed (remainder : String) (fault : TextFault)
  | unknownBlock (name : String)
  | unknownTypeTag (name : String)
  | unknownMaterial (name : String)
  | unknownQuery (name : String)
  deriving DecidableEq

structure QueryError where
  fragment : String
  fault : QueryFault
  deriving DecidableEq

/-- A stray character needs no more words than the place where it stands. -/
def TextFault.detail? : TextFault → Option String
  | nameExpected sigil => some s!"expected a name after '{sigil}'"
  | groupOpen => some "unterminated '['"
  | strayCharacter => none
  | bangRepeated => some "repeated '!'"
  | bangWithoutTerm => some "'!' must precede a term"
  | itemInvalid item => some s!"invalid property item '{item}'"

def QueryError.message (e : QueryError) : String :=
  let fragment := e.fragment
  match e.fault with
  | .malformed remainder fault =>
    let place := s!"Syntax error in '{fragment}' at '{remainder}'"
    match fault.detail? with
    | some detail => s!"{place}: {detail}"
    | none => place
  | .unknownBlock name => s!"No block called '{name}' in '{fragment}'"
  | .unknownTypeTag name => s!"No block type tag called '{name}' in '{fragment}'"
  | .unknownMaterial name => s!"No block material called '{name}' in '{fragment}'"
  | .unknownQuery name => s!"No predefined query named '{name}' in '{fragment}'"

end VoxelQuery
