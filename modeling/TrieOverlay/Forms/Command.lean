import TrieOverlay.Command
import TrieOverlay.Forms.Input

/-!
# Commands as JSON

A command is written as a record with the fields that it needs; which command it is says a name
outside of the record (`Command.ofJson?`).
-/

namespace TrieOverlay

namespace Bulk.Draft

/-- The draft that a command holds. -/
def ofJson (j : Json) : Except InputError Draft :=
  return ⟨← j.field "entries", ← j.field "lines", ← j.field "hex"⟩

end Bulk.Draft

/-- The listener of a command; without a name it is silent. -/
def Listener.ofJson (j : Json) : Except InputError Listener := do
  let name : Option String ← j.field "name"
  return name.elim .silent .named

/-- The submission of a command.  Entries go into a file if the command says so or has lines, and
without a file there must be entries. -/
def Submission.ofJson (j : Json) : Except InputError Submission := do
  let operation ← j.field "operation"
  let draft ← Bulk.Draft.ofJson j
  let inFile := (← j.fieldOr "file" false) || draft.lines.isSome
  let remote : Option Json ← j.field "remote"
  let remote ← remote.mapM fun r => do
    return (← r.field "parent", ← r.fieldOr "replica" false)
  if !inFile && draft.entries.isNone then .error (.field "entries")
  return ⟨operation, draft, inFile, remote⟩

namespace Command

/-- The command with a name, or nothing if no command has it. -/
def ofJson? (name : String) (j : Json) : Except InputError (Option Command) := do
  match name with
  | "listen" => return some (.listen (← j.field "type") (← Listener.ofJson j))
  | "create" => return some (.create (← j.field "type") (← j.field "payload"))
  | "insert" => return some (.insert (← j.field "entries") (← j.fieldOr "propagate" true))
  | "update" => return some (.update (← j.field "entries"))
  | "delete" => return some (.delete (← j.field "entries") (← j.fieldOr "propagate" true))
  | "get" => return some (.get (← j.field "id"))
  | "query" => return some (.query (← j.field "prefix"))
  | "dump" => return some .dump
  | "redistribute" => return some .redistribute
  | "stats" => return some .stats
  | "set_path" => return some (.setPath (← j.field "path"))
  | "submit" => return some (.submit (← Submission.ofJson j))
  | "cycle" => return some .cycle
  | "worker" => return some .work
  | "pause" => return some .pause
  | "resume" => return some .resume
  | "has_work" => return some .hasWork
  | "queues" => return some .queues
  | "append_inbound" => return some (.appendInbound (← j.field "entries"))
  | "append_outbound" =>
    return some (.appendOutbound (← j.field "operation") (← j.field "entries"))
  | "outbound" => return some (.outbound (← j.field "operation"))
  | _ => return none

end Command

end TrieOverlay
