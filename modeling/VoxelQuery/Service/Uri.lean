/-! The normal form of a URI, as far as it concerns a name behind a scheme of its own: blanks around
the URI and line breaks in it do not count, a scheme has no letter case, and credentials or a port
that are empty are left out. -/
namespace VoxelQuery.Uri

/-- Controls and the space stand around a URI without being part of it. -/
def isSurrounding (c : Char) : Bool := decide (c.toNat ≤ 0x20)

def isLineBreak (c : Char) : Bool := c == '\t' || c == '\n' || c == '\r'

def isSchemePart (c : Char) : Bool := c.isAlphanum || c == '+' || c == '-' || c == '.'

def endsAuthority (c : Char) : Bool := c == '/' || c == '?' || c == '#'

def strip (uri : List Char) : List Char :=
  let started := uri.dropWhile isSurrounding
  (started.reverse.dropWhile isSurrounding).reverse.filter fun c => !isLineBreak c

def dropCredentials : List Char → List Char
  | '@' :: host => host
  | ':' :: '@' :: host => host
  | host => host

def dropPort (host : List Char) : List Char :=
  if host.getLast? = some ':' then host.dropLast else host

def authority (text : List Char) : List Char := dropPort (dropCredentials text)

def behindScheme : List Char → List Char
  | '/' :: '/' :: rest =>
    '/' :: '/' :: (authority (rest.takeWhile fun c => !endsAuthority c) ++
      rest.dropWhile fun c => !endsAuthority c)
  | rest => rest

def normalChars? (uri : List Char) : Option (List Char) :=
  let chars := strip uri
  let scheme := chars.takeWhile isSchemePart
  match chars.dropWhile isSchemePart with
  | ':' :: rest =>
    if (scheme.head?.map Char.isAlpha).getD false then
      some (scheme.map Char.toLower ++ ':' :: behindScheme rest)
    else none
  | _ => none

/-- The normal form of a URI, and nothing for a text without a scheme. -/
def normal? (uri : String) : Option String := (normalChars? uri.toList).map String.ofList

example : normalChars? " Ab://@c:\n".toList = some "ab://c".toList := by decide +kernel
example : normalChars? "1b:c".toList = none := by decide +kernel

end VoxelQuery.Uri
