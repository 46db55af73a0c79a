/-! The characters of words. Names of properties, tags, materials and queries are words, and a
block may also have colons in its name, which set off a namespace. -/
namespace VoxelQuery.Text

/-- Letters, digits and the underscore of ASCII. -/
def isWordPart (c : Char) : Bool := c.isAlphanum || c == '_'

def isIdentifierPart (c : Char) : Bool := isWordPart c || c == ':'

def isWord (text : List Char) : Bool := !text.isEmpty && text.all isWordPart

def isIdentifier (text : List Char) : Bool := !text.isEmpty && text.all isIdentifierPart

theorem isIdentifierPart_of_isWordPart {c : Char} (h : isWordPart c = true) :
    isIdentifierPart c = true := by simp [isIdentifierPart, h]

end VoxelQuery.Text
