set_option autoImplicit false

namespace HashedLiterals

/-- The place of an entry on a disk: the names on the way from the root. -/
abbrev Key := List String

namespace Path

def isAbsolute (path : String) : Bool := path.toList.head? == some '/'

def parts (path : String) : List String := (path.toList.splitOn '/').map String.ofList

def joinParts (parts : List String) : String := String.intercalate "/" parts

/-- Adds a part to the components so far, the last of which comes first. Above the top, `..` is kept
in a relative path and dropped in an absolute one. -/
def push (absolute : Bool) (stack : List String) (part : String) : List String :=
  if part = "" ∨ part = "." then stack
  else if part = ".." then
    match stack with
    | [] => if absolute then [] else [".."]
    | top :: below => if top = ".." then ".." :: top :: below else below
  else part :: stack

def collapse (absolute : Bool) (parts : List String) : List String :=
  (parts.foldl (push absolute) []).reverse

def toKey (base : Key) (path : String) : Key :=
  collapse true (if isAbsolute path then parts path else base ++ parts path)

def ofKey (key : Key) : String := "/" ++ joinParts key

def normalize (path : String) : String :=
  let absolute := isAbsolute path
  let body := joinParts (collapse absolute (parts path))
  let trailing := path.toList.getLast? == some '/'
  if body.isEmpty then (if absolute then "/" else if trailing then "./" else ".")
  else (if absolute then "/" else "") ++ body ++ (if trailing then "/" else "")

def join (a b : String) : String :=
  let given := [a, b].filter fun p => !p.isEmpty
  if given.isEmpty then "." else normalize (joinParts given)

def relativeParts : Key → Key → List String
  | a :: as, b :: bs =>
    if a = b then relativeParts as bs else ((a :: as).map fun _ => "..") ++ (b :: bs)
  | as, bs => (as.map fun _ => "..") ++ bs

def relative (base : Key) (source target : String) : String :=
  joinParts (relativeParts (toKey base source) (toKey base target))

def isSlash (c : Char) : Bool := c == '/'

def parent (path : String) : String :=
  let absolute := isAbsolute path
  let shortened := (path.toList.reverse.dropWhile isSlash).dropWhile fun c => !isSlash c
  match shortened with
  | [] => if absolute then "/" else "."
  | [_] => if absolute then "/" else "."
  | [_, '/'] => if absolute then "//" else String.ofList ['/']
  | _ :: rest => String.ofList rest.reverse

def baseName (path : String) : String :=
  String.ofList ((path.toList.reverse.dropWhile isSlash).takeWhile fun c => !isSlash c).reverse

/-- A name from its last dot on; a dot at the front starts no extension. -/
def extension (name : String) : String :=
  let backwards := name.toList.reverse
  let tail := backwards.takeWhile (· != '.')
  match backwards.dropWhile (· != '.') with
  | [] => ""
  | [_] => ""
  | _ :: _ => if name = ".." then "" else String.ofList ('.' :: tail.reverse)

end Path

end HashedLiterals
