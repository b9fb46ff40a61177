import PhpImports.Text.Basic

/-!
# Invocations

The first word of a command line is the command; after it come flag words and the file, in any
order. Words that start with two dashes are no flags and are refused, before anything else is.
-/

namespace PhpImports

inductive Command where
  | tokens
  | uses
  | check
deriving DecidableEq, Repr, Inhabited

structure Flags where
  json : Bool := false
  shortTags : Bool := false
  noDiags : Bool := false
  timing : Bool := false
deriving DecidableEq, Repr, Inhabited

structure Invocation where
  command : Command
  flags : Flags
  path : Text
deriving DecidableEq, Repr, Inhabited

inductive UsageError where
  | noArguments
  | unknownOption (word : Text)
  | unknownCommand (word : Text)
  | missingFile
deriving DecidableEq, Repr, Inhabited

def usageLine : Text :=
  "Usage: phpuse <tokens|uses|check> [json] [short-tags] [no-diags] [timing] <file>".toList

namespace UsageError

def lines : UsageError → List Text
  | .noArguments => [usageLine]
  | .unknownOption word => ["Unknown option: ".toList ++ word]
  | .unknownCommand word => ["Unknown command: ".toList ++ word, usageLine]
  | .missingFile => ["Missing <file>".toList]

end UsageError

def Command.ofWord? (word : Text) : Option Command :=
  if word = "tokens".toList then some .tokens
  else if word = "uses".toList then some .uses
  else if word = "check".toList then some .check
  else none

namespace Flags

def words : List Text :=
  ["json".toList, "short-tags".toList, "no-diags".toList, "timing".toList]

/-- The flags that stand somewhere among the words. -/
def ofWords (ws : List Text) : Flags where
  json := ws.contains "json".toList
  shortTags := ws.contains "short-tags".toList
  noDiags := ws.contains "no-diags".toList
  timing := ws.contains "timing".toList

end Flags

def isOption (word : Text) : Bool :=
  Text.startsWith word "--".toList

def Invocation.parse : List Text → Except UsageError Invocation
  | [] => .error .noArguments
  | word :: ws =>
    match ws.find? isOption with
    | some option => .error (.unknownOption option)
    | none =>
      match Command.ofWord? word with
      | none => .error (.unknownCommand word)
      | some command =>
        match ws.filter (!Flags.words.contains ·) with
        | [path] => .ok ⟨command, .ofWords ws, path⟩
        | _ => .error .missingFile

end PhpImports
