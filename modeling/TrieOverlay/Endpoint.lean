import TrieOverlay.Json.Printer
import TrieOverlay.Node.Service
import TrieOverlay.Text.Hex

/-!
# Endpoints

A node is asked over HTTP.  An *endpoint* is a place where something can be asked; its path says
which one it is.  What a node takes from other peers and what changes its entries is posted, with a
JSON record as the body; what only looks is got, and has no body.

`Node.answer` answers a request.  A request that the node does not come to see gets a status that
says why, and no body.
-/

namespace TrieOverlay

/-- A request over HTTP. -/
structure HttpRequest where
  /-- What is to be done. -/
  method : String
  /-- Where it is to be done. -/
  path : String
  /-- The format of the body, if it is given. -/
  contentType : Option String
  /-- The body. -/
  body : Bytes
deriving DecidableEq, Repr

/-- The answer to a request over HTTP. -/
structure HttpReply where
  /-- How it came out. -/
  status : Status
  /-- What is told. -/
  body : Option Json
deriving Repr

/-- The reply that only has a status. -/
def HttpReply.refusal (status : Status) : HttpReply :=
  ⟨status, none⟩

/-- Where something can be asked. -/
inductive Endpoint where
  /-- Take a message of another peer. -/
  | route
  /-- Make entries and insert them. -/
  | insert
  /-- Give new payloads to entries. -/
  | update
  /-- Delete entries. -/
  | delete
  /-- Look up the entries below a key, of which the path has the text, escaped. -/
  | query (escaped : String)
  /-- Tell about the peer. -/
  | stats
deriving DecidableEq, Repr

namespace Endpoint

/-- The path where messages of other peers go. -/
def routePath : String := "/internal/route"

/-- The endpoint at a path; a question mark ends the path. -/
def ofPath? (path : String) : Option Endpoint :=
  let place := String.ofList (path.toList.takeWhile (· ≠ '?'))
  if place = routePath then some .route
  else
    match place.splitOn "/" with
    | ["", "index", "insert"] => some .insert
    | ["", "index", "update"] => some .update
    | ["", "index", "delete"] => some .delete
    | ["", "index", "query", escaped] => if escaped = "" then none else some (.query escaped)
    | ["", "index", "stats"] => some .stats
    | _ => none

/-- The methods by which an endpoint can be asked. -/
def methods : Endpoint → List String
  | query _ | stats => ["GET", "HEAD"]
  | _ => ["POST"]

/-- The bytes that an escaped text stands for: a percent sign and two hexadecimal digits stand for
one byte, everything else for itself. -/
def unescape : List Char → Bytes
  | [] => []
  | '%' :: a :: b :: rest =>
    match Hex.value? a, Hex.value? b with
    | some x, some y => .ofNat (x * 16 + y) :: unescape rest
    | _, _ => Utf8.encode "%" ++ unescape (a :: b :: rest)
  | c :: rest => Utf8.encode (String.singleton c) ++ unescape rest

end Endpoint

namespace HttpRequest

/-- A record posted to a path. -/
def post (path : String) (body : Json) : HttpRequest :=
  ⟨"POST", path, some "application/json", Utf8.encode body.render⟩

/-- Whether the body claims to be JSON. -/
def isJson (r : HttpRequest) : Bool :=
  r.contentType.any fun type =>
    let chars := (type.toList.takeWhile (· ≠ ';')).filter fun c => !c.isWhitespace
    let format := String.ofList (chars.map Char.toLower)
    format == "application/json" || (format.startsWith "application/" && format.endsWith "+json")

/-- What the body writes, or the status that says why it is not what is read here. -/
def read {α : Type} (ofWritten? : Json.Written → Option α) (r : HttpRequest) : Except Status α :=
  if r.isJson then
    match Utf8.decode? r.body >>= Json.Written.parse? with
    | none => .error .badRequest
    | some w =>
      match ofWritten? w with
      | some a => .ok a
      | none => .error .unprocessable
  else .error .unsupportedMediaType

end HttpRequest

namespace Node

/-- Answers a request with a body, unless it cannot be read. -/
def answerBody {α : Type} (n : Node) (r : HttpRequest) (ofWritten? : Json.Written → Option α)
    (act : α → (Status × Json) × Node) : HttpReply × Node :=
  match r.read ofWritten? with
  | .error status => (.refusal status, n)
  | .ok a =>
    let ((status, body), n) := act a
    (⟨status, some body⟩, n)

/-- Answers a request at an endpoint. -/
def answerAt (n : Node) (r : HttpRequest) : Endpoint → HttpReply × Node
  | .route => n.answerBody r Envelope.ofWritten? fun e =>
    let ((status, a), n) := n.receive e
    ((status, a.toJson), n)
  | .insert => n.answerBody r InsertRequest.ofWritten? fun i =>
    let (a, n) := n.insertItems i
    ((.ok, a.toJson), n)
  | .update => n.answerBody r UpdateRequest.ofWritten? fun u =>
    let (a, n) := n.updateItems u
    ((.ok, a.toJson), n)
  | .delete => n.answerBody r DeleteRequest.ofWritten? fun d =>
    let (a, n) := n.deleteIds d
    ((.ok, a.toJson), n)
  | .query escaped =>
    match Utf8.decode? (Endpoint.unescape escaped.toList) with
    | none => (.refusal .badRequest, n)
    | some text =>
      let (status, a) := n.queryText text
      (⟨status, some a.toJson⟩, n)
  | .stats =>
    let (a, n) := n.stats
    (⟨.ok, some a.toJson⟩, n)

/-- Answers a request. -/
def answer (n : Node) (r : HttpRequest) : HttpReply × Node :=
  match Endpoint.ofPath? r.path with
  | none => (.refusal .notFound, n)
  | some e =>
    if r.method ∈ e.methods then
      let (reply, n) := n.answerAt r e
      (if r.method = "HEAD" then .refusal reply.status else reply, n)
    else (.refusal .methodNotAllowed, n)

end Node

end TrieOverlay
