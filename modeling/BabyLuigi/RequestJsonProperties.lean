import BabyLuigi.RequestJson
import BabyLuigi.Storage.JsonProperties

/-! What a client encodes is what the server decodes. -/

set_option autoImplicit false

namespace BabyLuigi

theorem toRequestType_toStringView (type : RequestType) :
    toRequestType type.toStringView = type := by
  cases type <;> decide

theorem toCommandEnum_toStringView (command : CommandEnum) :
    toCommandEnum command.toStringView = command := by
  cases command <;> decide

namespace Json

theorem find_insertMember (name other : Str) (value : Json) (members : List (Str × Json)) :
    find (insertMember name value members) other =
      if name = other then some value else find members other := by
  induction members with
  | nil => rfl
  | cons first rest ih =>
      obtain ⟨key, held⟩ := first
      simp only [insertMember]
      split
      · simp only [find]
      · split
        · rename_i same
          subst key
          simp only [find]
          split <;> rfl
        · rename_i different
          simp only [find, ih]
          by_cases found : key = other
          · subst other
            simp only [different, if_true, if_false]
          · simp only [found, if_false]

section Members

variable (request : ShyguyRequest)

theorem member_ofRequest (name : Str) : (ofRequest request).member name =
    if ascii "value" = name then some (ofRequestData request.data)
    else if ascii "command" = name then some (.string request.command.toStringView)
    else if ascii "type" = name then
      some (.string (RequestType.ofIndex request.data.index).toStringView)
    else none := by
  simp only [ofRequest, member, find_insertMember, find]

theorem command_ofRequest : (ofRequest request).stringOr (ascii "command") (ascii "not-set") =
    .ok request.command.toStringView := by
  have found : (ofRequest request).member (ascii "command") =
      some (.string request.command.toStringView) := by
    rw [member_ofRequest, if_neg (by decide), if_pos rfl]
  have object : (ofRequest request).isObject = true := rfl
  simp only [stringOr, object, found, getString, if_true]

theorem type_ofRequest : (ofRequest request).at' (ascii "type") =
    .ok (.string (RequestType.ofIndex request.data.index).toStringView) := by
  rw [at', member_ofRequest, if_neg (by decide), if_neg (by decide), if_pos rfl]

theorem value_ofRequest :
    (ofRequest request).at' (ascii "value") = .ok (ofRequestData request.data) := by
  rw [at', member_ofRequest, if_pos rfl]

theorem contains_of_at' {json value : Json} {name : Str} (found : json.at' name = .ok value) :
    json.contains name = true := by
  cases held : json.member name with
  | none => simp [at', held] at found
  | some _ => simp [contains, held]

/-- Each alternative takes its own way through the decoder; absent optionals
are encoded as `null` and stay apart from empty ones. -/
theorem getRequest_ofRequest : (ofRequest request).getRequest = .ok request := by
  rw [getRequest, fromJson, bind_of_ok (command_ofRequest request), if_neg (by simp [isNull, ofRequest]),
    if_pos (by rw [contains_of_at' (type_ofRequest request),
      contains_of_at' (value_ofRequest request)]; rfl),
    bind_of_ok (type_ofRequest request), getString, bind_of_ok rfl, toCommandEnum_toStringView,
    toRequestType_toStringView]
  obtain ⟨data, command⟩ := request
  cases data with
  | monostate => rfl
  | dag dag =>
      simp only [RequestData.index, RequestType.ofIndex]
      rw [bind_of_ok (value_ofRequest _), ofRequestData, bind_of_ok (getDag_ofDag dag)]
      rfl
  | task task =>
      simp only [RequestData.index, RequestType.ofIndex]
      rw [bind_of_ok (value_ofRequest _), ofRequestData, bind_of_ok (getTask_ofTask task)]
      rfl

end Members

end Json

/-- Whatever a client asks for, the router reads the same request. -/
theorem unpackRequest_createRequest {toBson : Json → Str} {fromBson : Str → Except Fault Json}
    (request : ShyguyRequest)
    (inverse : fromBson (toBson (.ofRequest request)) = .ok (.ofRequest request)) :
    unpackRequest fromBson (createRequest toBson request) = .ok request := by
  rw [unpackRequest, createRequest, bind_of_ok inverse, Json.getRequest_ofRequest]

def createEtl : ShyguyRequest where
  data := .dag { name := ascii "etl", schedule := none }
  command := .create

/-- `createEtl` as a BSON document: `command`, `type` and the nested `value`. -/
def createEtlPayload : Str :=
  [75, 0, 0, 0] ++
    [2] ++ ascii "command" ++ [0] ++ [7, 0, 0, 0] ++ ascii "create" ++ [0] ++
    [2] ++ ascii "type" ++ [0] ++ [4, 0, 0, 0] ++ ascii "dag" ++ [0] ++
    [3] ++ ascii "value" ++ [0] ++
      [29, 0, 0, 0] ++
        [2] ++ ascii "name" ++ [0] ++ [4, 0, 0, 0] ++ ascii "etl" ++ [0] ++
        [10] ++ ascii "schedule" ++ [0] ++
      [0] ++
  [0]

theorem unpackRequest_createRequest_etl :
    unpackRequest
      (fun payload => if payload = createEtlPayload then .ok (.ofRequest createEtl)
        else .error .jsonException)
      (createRequest (fun _ => createEtlPayload) createEtl) = .ok createEtl :=
  unpackRequest_createRequest createEtl (if_pos rfl)

end BabyLuigi
