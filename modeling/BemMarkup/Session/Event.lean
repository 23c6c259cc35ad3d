/-!
# The log of a session

A session records what it does. An `Event` holds the facts; its level and its wording are
computed from them.
-/

namespace BemMarkup

/-- How much attention a record asks for. -/
inductive Level where
  /-- A record of every step. -/
  | trace
  /-- A record of something that happens once. -/
  | debug
deriving DecidableEq, Repr

/-- Something that a session does. -/
inductive Event where
  /-- A source of this many bytes is going to be parsed. -/
  | parsing (bytes : Nat)
  /-- A template with these block names is going to be compiled. -/
  | compiling (blocks : List String)
  /-- The registry of helpers has become final with this many helpers. -/
  | frozen (helpers : Nat)
  /-- A template that declares this many elements, with or without a parent, has been
  compiled. -/
  | compiled (elements : Nat) (inherited : Bool)
  /-- A template with these block names is going to be rendered. -/
  | rendering (blocks : List String)
  /-- A helper is being registered. -/
  | registering (name : String)
deriving DecidableEq, Repr

/-- The level of a record. -/
def Event.level : Event → Level
  | .parsing _ | .rendering _ => .trace
  | .compiling _ | .frozen _ | .compiled _ _ | .registering _ => .debug

/-- Block names as they are listed in a record. -/
def listBlocks (blocks : List String) : String := "'" ++ ", ".intercalate blocks ++ "'"

/-- The wording of a record. -/
def Event.message : Event → String
  | .parsing bytes => "parsing " ++ toString bytes ++ " bytes of nelm source"
  | .compiling blocks => "compiling block " ++ listBlocks blocks
  | .frozen helpers => "helper registry frozen with " ++ toString helpers ++ " helpers"
  | .compiled elements inherited =>
    "compiled " ++ toString elements ++ " element(s), inherited: " ++
      if inherited then "true" else "false"
  | .rendering blocks => "rendering block " ++ listBlocks blocks
  | .registering name => "registering helper '" ++ name ++ "'"

end BemMarkup
