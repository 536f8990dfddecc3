import TrieOverlay.Config

/-!
# The command line

The words after the name of the program say which peers to run and override their settings:

    --config FILE   --bind ADDRESS   --path BITS   --data-dir DIRECTORY

The value of an option is the next word, or stands in the same word after an equals sign.  Every
`--config` but the first begins another peer, and all options up to the next one are about it.  No
words at all make one peer with the standard settings.
-/

namespace TrieOverlay

/-- What the command line says about a peer. -/
structure PeerOptions where
  /-- The file that has its settings. -/
  config : Option String
  /-- Where it listens. -/
  bind : Option SocketAddress
  /-- The subtree it is responsible for. -/
  path : Option Key
  /-- The directory of its files. -/
  dataDir : Option String
deriving DecidableEq, Repr

/-- What is wrong with a command line. -/
inductive CommandLineError where
  /-- No option has the name. -/
  | unknown (name : String)
  /-- There is no word after the name. -/
  | valueMissing (name : String)
  /-- The value cannot be read. -/
  | malformed (name value : String)
deriving DecidableEq, Repr

/-- The wording of an error. -/
def CommandLineError.message : CommandLineError → String
  | unknown name => "unknown option " ++ name
  | valueMissing name => "option " ++ name ++ " has no value"
  | malformed name value => "option " ++ name ++ " cannot be " ++ value

namespace PeerOptions

/-- Nothing is said. -/
def empty : PeerOptions := ⟨none, none, none, none⟩

/-- The names of the options. -/
def names : List String :=
  ["--config", "--bind", "--path", "--data-dir"]

/-- One line that says which options there are. -/
def usage : String :=
  "options: [--config FILE] [--bind ADDRESS] [--path BITS] [--data-dir DIRECTORY] ..."

/-! ### Words -/

/-- A word as a name, and the value if it stands in the same word. -/
def splitWord (word : String) : String × Option String :=
  match word.toList.span (· ≠ '=') with
  | (name, '=' :: value) => (String.ofList name, some (String.ofList value))
  | _ => (word, none)

/-- The words as names with their values. -/
def pairs : List String → Except CommandLineError (List (String × String))
  | [] => .ok []
  | word :: rest =>
    let (name, value) := splitWord word
    if name ∉ names then .error (.unknown name)
    else
      match value, rest with
      | some value, rest => (pairs rest).map ((name, value) :: ·)
      | none, value :: rest => (pairs rest).map ((name, value) :: ·)
      | none, [] => .error (.valueMissing name)

/-! ### Options -/

/-- A value, or the error that it cannot be read. -/
def orMalformed {α : Type} (name value : String) : Option α → Except CommandLineError α
  | some a => .ok a
  | none => .error (.malformed name value)

/-- The options with one more. -/
def set (o : PeerOptions) (name value : String) : Except CommandLineError PeerOptions :=
  match name with
  | "--config" => .ok { o with config := some value }
  | "--bind" => do
    return { o with bind := some (← orMalformed name value (SocketAddress.ofString? value)) }
  | "--path" => do
    return { o with path := some (← orMalformed name value (Key.ofString? value)) }
  | "--data-dir" => .ok { o with dataDir := some value }
  | _ => .error (.unknown name)

/-- The options of every peer, the one that they are about at the moment first. -/
def group (o : PeerOptions) :
    List (String × String) → Except CommandLineError (List PeerOptions)
  | [] => .ok [o]
  | (name, value) :: rest => do
    if name = "--config" ∧ o.config.isSome then
      let next ← empty.set name value
      return o :: (← next.group rest)
    else
      (← o.set name value).group rest

/-- The options of every peer that the words ask for. -/
def ofWords (words : List String) : Except CommandLineError (List PeerOptions) := do
  empty.group (← pairs words)

/-- The settings with the options in their place. -/
def override (o : PeerOptions) (c : Config) : Config :=
  { c with
    bind := o.bind.getD c.bind
    path := o.path.getD c.path
    dataDir := o.dataDir.getD c.dataDir }

end PeerOptions

end TrieOverlay
