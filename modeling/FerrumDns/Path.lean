import FerrumDns.Text

/-! Paths as the standard library of a Unix system treats them: text between slashes,
where empty parts and dots count for nothing but a leading dot. -/

namespace FerrumDns

namespace Path

def isAbsolute (p : Text) : Bool := p.head? = some '/'

/-- `join`; an absolute path replaces the base. -/
def join (base p : Text) : Text :=
  if isAbsolute p then p
  else if base = [] ∨ base.getLast? = some '/' then base ++ p
  else base ++ '/' :: p

/-- A part between slashes that is no component. -/
def isBlank (part : Text) : Bool := part = [] || part = ['.']

def trimBlank (parts : List Text) : List Text := parts.rdropWhile isBlank

/-- A dot at the start of a relative path is a component. -/
def trimRelative : List Text → List Text
  | ['.'] :: parts => ['.'] :: trimBlank parts
  | parts => trimBlank parts

/-- The path without its last component, as far as it is text before that. -/
def parent : Text → Option Text
  | '/' :: rest =>
    match trimBlank (rest.splitOn '/') with
    | [] => none
    | parts => some ('/' :: ['/'].intercalate (trimBlank parts.dropLast))
  | p =>
    match trimRelative (p.splitOn '/') with
    | [] => none
    | parts => some (['/'].intercalate (trimRelative parts.dropLast))

example : parent "conf/main.yaml".toList = some "conf".toList := by decide

example : parent "main.yaml".toList = some [] := by decide

end Path

/-- Absolute paths stay as they are; relative ones are joined to the configuration's directory. -/
def resolvePath (base p : String) : String :=
  if Path.isAbsolute p.toList then p
  else if base = "" then p
  else String.ofList (Path.join base.toList p.toList)

end FerrumDns
