/-! The error type of the program. -/

namespace FerrumDns

/-- A plugin tag. -/
abbrev Tag := String

inductive Error where
  | config (message : String)
  | plugin (tag : Tag) (kind : String) (message : String)
  | unknownTag (tag : Tag)
  | protocol (message : String)
  | upstream (addr : String) (message : String)
  | io (message : String)
  | other (message : String)
  deriving DecidableEq, Repr

/-- `to_string`. -/
def Error.display : Error → String
  | config message => "config: " ++ message
  | plugin tag kind message => "plugin `" ++ tag ++ "` (" ++ kind ++ "): " ++ message
  | unknownTag tag => "unknown plugin tag `" ++ tag ++ "`"
  | protocol message => "dns protocol: " ++ message
  | upstream addr message => "upstream " ++ addr ++ ": " ++ message
  | io message => "io: " ++ message
  | other message => message

end FerrumDns
