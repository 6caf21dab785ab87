import RemoteQuery.Json.Reader
import RemoteQuery.Json.Terms
import RemoteQuery.Request

/-!
# Command line

A command names a file that holds a query as a document, and prints the query's text or how it
would be split. One flag keeps member names as they are declared; it may stand before the command
or after it. Every other flag stands after its own command, takes no value and is given at most
once. After two dashes everything is a path. Bad usage exits with two, and a query that cannot be
read or written with one; neither prints anything.
-/

namespace RemoteQuery.CommandLine

inductive Command where
  | compile
  | select
  | partition
deriving DecidableEq

namespace Command

def ofName? : String → Option Command
  | "compile" => some .compile
  | "select" => some .select
  | "partition" => some .partition
  | _ => none

def flag : Command → String
  | .compile | .select => "--encode"
  | .partition => "--forbid-client"

end Command

def verbatimFlag : String := "--verbatim-members"

def version : String := "querywire 0.1.0"

structure Invocation where
  command : Command
  path : String
  flagged : Bool
  verbatim : Bool
deriving DecidableEq

inductive Usage where
  | printVersion
  | run (invocation : Invocation)
deriving DecidableEq

structure Arguments where
  path : Option String
  flagged : Bool
  verbatim : Bool

namespace Arguments

def empty : Arguments := ⟨none, false, false⟩

def addPath (a : Arguments) (path : String) : Option Arguments :=
  if a.path.isSome || path.isEmpty then none else some { a with path := some path }

def isFlag (arg : String) : Bool := arg.startsWith "-" && arg != "-"

def read (command : Command) (a : Arguments) : List String → Option Arguments
  | [] => some a
  | "--" :: paths => paths.foldlM addPath a
  | arg :: args =>
    if arg = command.flag then
      if a.flagged then none else read command { a with flagged := true } args
    else if arg = verbatimFlag then
      if a.verbatim then none else read command { a with verbatim := true } args
    else if isFlag arg then none
    else do read command (← a.addPath arg) args

end Arguments

namespace Usage

def read (verbatim : Bool) : List String → Option Usage
  | [] => none
  | arg :: args =>
    if arg = verbatimFlag then if verbatim then none else read true args
    else if arg = "--version" || arg.startsWith "-V" then some .printVersion
    else do
      let command ← Command.ofName? arg
      let given ← Arguments.empty.read command args
      return .run ⟨command, ← given.path, given.flagged, verbatim || given.verbatim⟩

def ofArguments? (args : List String) : Option Usage := read false args

end Usage

structure Outcome where
  exitCode : Nat
  output : String
deriving DecidableEq

namespace Outcome

def success (output : String) : Outcome := ⟨0, output ++ "\n"⟩

def failure : Outcome := ⟨1, ""⟩

def badUsage : Outcome := ⟨2, ""⟩

end Outcome

/-- Arrays and objects of a file may be nested less deep than this. -/
def nestingLimit : Nat := 128

def queryOf? (source : String) : Option Term := do
  let j ← Json.read? source
  if j.depth < nestingLimit then Term.ofJson? j else none

def unmapped? : Fault → Option Signature
  | .unmapped signature => some signature
  | _ => none

def report (s : Split) : Json :=
  .object [("arity", .ofNat s.arity), ("server", .ofString? s.serverText?),
    ("client_reasons", .array (s.reasons.map fun f => .string f.message)),
    ("unmapped", .array ((s.reasons.filterMap unmapped?).map Signature.toJson))]

namespace Invocation

def dialect (i : Invocation) : Dialect :=
  { Dialect.standard with naming := if i.verbatim then .verbatim else .camelCase }

def answer (i : Invocation) (query : Term) : Except Fault String :=
  match i.command with
  | .compile => do
    let filter ← i.dialect.predicate query
    return if i.flagged then { QueryOptions.empty with filter := some filter }.text else filter
  | .select => do
    let select ← i.dialect.projection query
    return if i.flagged then { QueryOptions.empty with select := some select }.text else select
  | .partition => do
    let clientUse := if i.flagged then .forbidden else .allowed
    return (report (← i.dialect.split clientUse query)).pretty

/-- What comes of the command when its file has the given text, or none when there is no file. -/
def run (i : Invocation) (source : Option String) : Outcome :=
  match source.bind queryOf? with
  | none => .failure
  | some query =>
    match i.answer query with
    | .ok text => .success text
    | .error _ => .failure

end Invocation
end RemoteQuery.CommandLine
