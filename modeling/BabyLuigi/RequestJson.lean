import BabyLuigi.Storage.Json

/-!
# Requests on the wire

The JSON of a request. The index of the alternative it holds is its type tag.
-/

set_option autoImplicit false

namespace BabyLuigi

inductive RequestType where
  | unset
  | dag
  | task
  | unknown
  deriving DecidableEq, Repr

def RequestType.toStringView : RequestType → Str
  | .dag => ascii "dag"
  | .task => ascii "task"
  | .unset => ascii "unset"
  | .unknown => ascii "unknown"

def toRequestType (value : Str) : RequestType :=
  if value = ascii "dag" then .dag
  else if value = ascii "task" then .task
  else if value = ascii "unset" then .unset
  else .unknown

def CommandEnum.toStringView : CommandEnum → Str
  | .create => ascii "create"
  | .remove => ascii "remove"
  | .execute => ascii "execute"
  | .snapshot => ascii "snapshot"
  | .error => ascii "error"
  | .notSet => ascii "not-set"

def toCommandEnum (value : Str) : CommandEnum :=
  if value = ascii "create" then .create
  else if value = ascii "remove" then .remove
  else if value = ascii "execute" then .execute
  else if value = ascii "snapshot" then .snapshot
  else if value = ascii "error" then .error
  else .notSet

/-- `data.index()`. -/
def RequestData.index : RequestData → Nat
  | .monostate => 0
  | .dag _ => 1
  | .task _ => 2

/-- The cast of an index to the enumeration. -/
def RequestType.ofIndex : Nat → RequestType
  | 0 => .unset
  | 1 => .dag
  | 2 => .task
  | _ => .unknown

namespace Json

/-- `json[name] = value` on an object, whose members stay ordered by their names. -/
def insertMember (name : Str) (value : Json) : List (Str × Json) → List (Str × Json)
  | [] => [(name, value)]
  | (key, held) :: rest =>
    if name < key then (name, value) :: (key, held) :: rest
    else if name = key then (name, value) :: rest
    else (key, held) :: insertMember name value rest

def ofRequestData : RequestData → Json
  | .monostate => .null
  | .dag dag => ofDag dag
  | .task task => ofTask task

def ofRequest (request : ShyguyRequest) : Json :=
  let requestEnum := RequestType.ofIndex request.data.index
  .object
    (insertMember (ascii "value") (ofRequestData request.data)
      (insertMember (ascii "command") (.string request.command.toStringView)
        (insertMember (ascii "type") (.string requestEnum.toStringView) [])))

def isNull : Json → Bool
  | .null => true
  | _ => false

/-- The data of the request stays as it was where the type or the value is missing. -/
def fromJson (json : Json) (request : ShyguyRequest) : Except Fault ShyguyRequest := do
  let command ← json.stringOr (ascii "command") (ascii "not-set")
  let request := { request with command := toCommandEnum command }
  if json.isNull then
    return { request with data := .monostate }
  else if json.contains (ascii "type") && json.contains (ascii "value") then
    let type ← (← json.at' (ascii "type")).getString
    match toRequestType type with
    | .dag =>
      let dag ← (← json.at' (ascii "value")).getDag
      return { request with data := .dag dag }
    | .task =>
      let task ← (← json.at' (ascii "value")).getTask
      return { request with data := .task task }
    | .unset | .unknown => return { request with data := .monostate }
  else
    return request

/-- `get<shyguy_request>()`: decoding starts from a request without data. -/
def getRequest (json : Json) : Except Fault ShyguyRequest :=
  json.fromJson { data := .monostate, command := .notSet }

end Json

/-- The message of a client, with the encoder of the JSON library. -/
def createRequest (toBson : Json → Str) (request : ShyguyRequest) : Str :=
  toBson (.ofRequest request)

/-- What the router reads from a payload, with the decoder of the JSON library. -/
def unpackRequest (fromBson : Str → Except Fault Json) (payload : Str) :
    Except Fault ShyguyRequest :=
  fromBson payload >>= Json.getRequest

end BabyLuigi
