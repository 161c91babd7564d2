import Intent.Library.RefCount
import Intent.Library.Run
import Intent.Old.CurlSession

/-!
# Handles of curl requests and responses

`request` and `response` are handles of counted objects, which sessions hold as well. This is the
life of these objects in `core/net/curl`, with the sessions and the channels that they point to: the
counts, the pointers, and who is deleted when. What the objects are about (URLs, verbs, headers,
bodies) has no place here, but for what `send` finds in a request, which comes with the call
(`sendPrelocked_contents`). Objects that were deleted are not there any more, and a call that looks
at one, or follows a null pointer, has no result.

The copy constructor of `request` does not share the object of the other request: it makes one for
the same session, and counts itself twice.
-/

namespace Intent.Old.Curl

/-! ### Objects -/

/-- The pointers of `response::impl_t`. -/
structure ResponseImpl where
  session : Option ℕ
  sessionOwnedByMe : Bool

/-- `session::impl_t`, and whether it was deleted. -/
structure SessionImpl where
  alive : Bool
  channel : Option ℕ
  state : SessionState
  currentRequest : ℕ
  currentResponse : ℕ

/-- `channel::impl_t`: whether it was deleted, whether its `service_runner` has an id, how many
threads were started for it, and its sessions. -/
structure ChannelImpl where
  alive : Bool
  runnerHasId : Bool
  threads : ℕ
  sessions : List ℕ

/-- All objects, and the handles, which are null where they were moved from or destroyed. The value
of a request is its session. -/
structure World where
  requests : CountedStore (Option ℕ)
  responses : CountedStore ResponseImpl
  requestHandles : List (Option ℕ)
  responseHandles : List (Option ℕ)
  sessions : List SessionImpl
  channels : List ChannelImpl

/-- Before anything is made. -/
def World.empty : World := ⟨[], [], [], [], [], []⟩

/-- A session that was not deleted. -/
def World.session? (w : World) (s : ℕ) : Option SessionImpl :=
  (w.sessions[s]?).filter (·.alive)

/-- A channel that was not deleted. -/
def World.channel? (w : World) (c : ℕ) : Option ChannelImpl :=
  (w.channels[c]?).filter (·.alive)

/-! ### Channels -/

/-- `channel::channel`. -/
def newChannel (w : World) : World :=
  { w with channels := w.channels ++ [⟨true, false, 0, []⟩] }

/-- `channel::impl_t::is_open`: whether `service_runner` has an id. -/
def ChannelImpl.isOpen (c : ChannelImpl) : Bool := c.runnerHasId

/-- `channel::open`. The id of `service_runner` is gone with `detach`. -/
def ChannelImpl.open (c : ChannelImpl) : ChannelImpl :=
  if c.isOpen then c
  else
    let started := { c with runnerHasId := true, threads := c.threads + 1 }
    { started with runnerHasId := false }

/-- `channel::attach`. -/
def attach (w : World) (c s : ℕ) : Option World :=
  (w.channel? c).map fun channel =>
    { w with channels := w.channels.set c { channel with sessions := s :: channel.sessions } }

/-- `channel::detach`. -/
def detach (w : World) (c s : ℕ) : Option World :=
  (w.channel? c).map fun channel =>
    { w with channels := w.channels.set c { channel with sessions := channel.sessions.erase s } }

/-- The destructor of `channel::impl_t` leaves the sessions alone where the channel is not open. -/
def deleteChannel (w : World) (c : ℕ) : Option World :=
  (w.channel? c).map fun channel =>
    let sessions :=
      if channel.isOpen then
        w.sessions.zipIdx.map fun (session, s) =>
          if s ∈ channel.sessions then { session with channel := none } else session
      else w.sessions
    { w with sessions, channels := w.channels.set c { channel with alive := false } }

/-! ### Requests -/

/-- A handle. -/
def World.request? (w : World) (i : ℕ) : Option ℕ := w.requestHandles[i]?.join

/-- `request::impl_t::release_ref`. -/
def releaseRequest (w : World) (x : ℕ) : Option World :=
  (w.requests.fetchSub x).map fun (requests, last) =>
    { w with requests := if last then requests.free x else requests }

/-- `request::request(impl_t *)`. -/
def pointRequest (w : World) (x : ℕ) : Option World :=
  (w.requests.addRef x).map fun requests =>
    { w with requests, requestHandles := w.requestHandles ++ [some x] }

/-- `request::request(request const &)`: a new object, for the session of the other one. -/
def copyRequest (w : World) (i : ℕ) : Option World :=
  (w.request? i).bind fun x =>
    (w.requests.value? x).map fun session =>
      { w with
        -- `ref_count` is 1 at first, and `add_ref` follows
        requests := w.requests.alloc (1 + 1) session
        requestHandles := w.requestHandles ++ [some w.requests.length] }

/-- `request::request(request &&)`. -/
def moveRequest (w : World) (i : ℕ) : World :=
  { w with requestHandles := w.requestHandles.set i none ++ [w.request? i] }

/-- `request::~request`. -/
def destroyRequest (w : World) (i : ℕ) : Option World :=
  match w.request? i with
  | none => some w
  | some x => releaseRequest { w with requestHandles := w.requestHandles.set i none } x

/-! ### Responses and sessions -/

/-- A handle. -/
def World.response? (w : World) (i : ℕ) : Option ℕ := w.responseHandles[i]?.join

/-- A session that is deleted leaves its channel, if that has not broken the link. -/
def leaveChannel (w : World) (session : SessionImpl) (s : ℕ) : Option World :=
  match session.channel with
  | some c => detach w c s
  | none => some w

/-- The session of a request is no more. -/
def breakRequest (w : World) (x : ℕ) : Option World :=
  (w.requests.put x none).map fun requests => { w with requests }

/-- The session of a response is no more. -/
def breakResponse (w : World) (x : ℕ) : Option World :=
  (w.responses.value? x).bind fun value =>
    (w.responses.put x { value with session := none }).map fun responses => { w with responses }

mutual

/-- `response::impl_t::release_ref`, with the destructor of `response::impl_t`. -/
def releaseResponse : ℕ → World → ℕ → Option World
  | 0, _, _ => none
  | n + 1, w, x =>
    (w.responses.value? x).bind fun value =>
      (w.responses.fetchSub x).bind fun (responses, last) =>
        let w := { w with responses }
        if last then
          let w :=
            match value.sessionOwnedByMe, value.session with
            | true, some s => deleteSession n w s
            | _, _ => some w
          w.map fun w => { w with responses := w.responses.free x }
        else some w

/-- The destructor of `session::impl_t`. -/
def deleteSession : ℕ → World → ℕ → Option World
  | 0, _, _ => none
  | n + 1, w, s =>
    (w.session? s).bind fun session =>
      (leaveChannel w session s).bind fun w =>
        (breakRequest w session.currentRequest).bind fun w =>
        (releaseRequest w session.currentRequest).bind fun w =>
        (breakResponse w session.currentResponse).bind fun w =>
        (releaseResponse n w session.currentResponse).map fun w =>
        { w with sessions := w.sessions.set s { session with alive := false } }

end

/-- `response::response(impl_t *)`. -/
def pointResponse (w : World) (x : ℕ) : Option World :=
  (w.responses.addRef x).map fun responses =>
    { w with responses, responseHandles := w.responseHandles ++ [some x] }

/-- `response::response(response const &)`. -/
def copyResponse (w : World) (i : ℕ) : Option World :=
  (w.response? i).bind (pointResponse w)

/-- `response::response(response &&)`. -/
def moveResponse (w : World) (i : ℕ) : World :=
  { w with responseHandles := w.responseHandles.set i none ++ [w.response? i] }

/-- `response::~response`. -/
def destroyResponse (n : ℕ) (w : World) (i : ℕ) : Option World :=
  match w.response? i with
  | none => some w
  | some x => releaseResponse n { w with responseHandles := w.responseHandles.set i none } x

/-- `session::session`, for a channel. -/
def newSession (w : World) (c : ℕ) : Option World :=
  let s := w.sessions.length
  attach
    { w with
      requests := w.requests.alloc 1 (some s)
      responses := w.responses.alloc 1 ⟨some s, false⟩
      sessions := w.sessions ++
        [⟨true, some c, .configuring, w.requests.length, w.responses.length⟩] }
    c s

/-- `session::get_current_request`. -/
def getCurrentRequest (w : World) (s : ℕ) : Option World :=
  (w.session? s).bind fun session => pointRequest w session.currentRequest

/-- `session::get_current_response`. -/
def getCurrentResponse (w : World) (s : ℕ) : Option World :=
  (w.session? s).bind fun session => pointResponse w session.currentResponse

/-- `session::get`: a response that has nothing to do with the current one. -/
def sessionGet (w : World) (s : ℕ) : Option World :=
  (w.session? s).map fun _ =>
    { w with
      responses := w.responses.alloc 1 ⟨some s, false⟩
      responseHandles := w.responseHandles ++ [some w.responses.length] }

/-- `session::reset_prelocked`. -/
def resetPrelocked (w : World) (s : ℕ) : Option World :=
  (w.session? s).bind fun session =>
    if session.state ≠ .configuring then
      (releaseRequest w session.currentRequest).map fun w =>
        { w with
          requests := w.requests.alloc 1 (some s)
          sessions := w.sessions.set s { session with currentRequest := w.requests.length } }
    else some w

/-- `session::reset`. -/
def resetSession (w : World) (s : ℕ) : Option World :=
  (resetPrelocked w s).bind fun w => getCurrentRequest w s

/-- The state of a session changes. -/
def setState (w : World) (s : ℕ) (state : SessionState) : Option World :=
  (w.session? s).map fun session =>
    { w with sessions := w.sessions.set s { session with state } }

/-- What `send_prelocked` comes to in a request: no URL, or an empty one; a URL, which was freed or
has no method for its verb; a URL and a method. -/
inductive RequestContents where
  | noUrl
  | undefined
  | complete
  deriving DecidableEq

/-- What there is in a request. -/
def Request.contents (r : Request) : RequestContents :=
  match r.url with
  | .null => .noUrl
  | .freed => .undefined
  | .string url =>
    if url.chars = [] then .noUrl
    else if (getHttpMethodByName r.verb).isSome then .complete
    else .undefined

/-- **Contents.** What a session that is ready to send makes of its request. -/
theorem sendPrelocked_contents (s : Session) (hattached : s.attached = true)
    (hstate : s.state = .configuring) :
    s.sendPrelocked =
      match s.currentRequest.contents with
      | .noUrl => .error (.stateError "No url has been configured in the request.")
      | .undefined => .error .undefined
      | .complete => .ok { s with state := .requesting } := by
  rw [Session.sendPrelocked, if_neg (not_not.mpr hattached), if_neg (not_not.mpr hstate),
    Request.contents]
  cases s.currentRequest.url with
  | null => rfl
  | freed => rfl
  | string url =>
    dsimp only
    by_cases hurl : url.chars = []
    · rw [if_pos hurl, if_pos hurl]
    · rw [if_neg hurl, if_neg hurl]
      cases getHttpMethodByName s.currentRequest.verb with
      | none => rfl
      | some id => rfl

/-- `session::send_prelocked`, and whether it returned or threw. -/
def sendPrelocked (w : World) (s : ℕ) (contents : RequestContents) : Option (World × Bool) :=
  (w.session? s).bind fun session =>
    match session.channel with
    | none => some (w, false)
    | some c =>
      (w.channel? c).bind fun channel =>
        if session.state ≠ .configuring ∨ contents = .noUrl then some (w, false)
        -- `set_curl_verb` follows the null pointer to the method
        else if contents = .undefined then none
        else
          (setState { w with channels := w.channels.set c channel.open } s .requesting).map
            fun w => (w, true)

/-- `session::send`. -/
def sendSession (w : World) (s : ℕ) (contents : RequestContents) : Option World :=
  (sendPrelocked w s contents).bind fun (w, returned) =>
    if returned then getCurrentResponse w s else some w

/-- What `start_get` puts into a request: its verb is known. -/
def getContents (hasUrl : Bool) : RequestContents := if hasUrl then .complete else .noUrl

/-- `session::start_get`, with a URL or without one. -/
def sessionStartGet (w : World) (s : ℕ) (hasUrl : Bool) : Option World :=
  (resetPrelocked w s).bind fun w => sendSession w s (getContents hasUrl)

/-- `request::start_get`, with the default channel. Where `session::start_get` throws, the session
that was made for it is lost; else its response is handed out, and told that it owns the session. -/
def requestStartGet (w : World) (c : ℕ) (hasUrl : Bool) : Option World :=
  let s := w.sessions.length
  (newSession w c).bind fun w => (resetPrelocked w s).bind fun w =>
    (sendPrelocked w s (getContents hasUrl)).bind fun (w, returned) =>
      if returned then
        (w.session? s).bind fun session =>
          (w.responses.value? session.currentResponse).bind fun value =>
            (w.responses.put session.currentResponse { value with sessionOwnedByMe := true }).bind
              fun responses => pointResponse { w with responses } session.currentResponse
      else some w

/-! ### Steps -/

/-- What happens in the program. -/
inductive HandleCall where
  | newChannel
  | deleteChannel (c : ℕ)
  | newSession (c : ℕ)
  | deleteSession (s : ℕ)
  | setState (s : ℕ) (state : SessionState)
  | getCurrentRequest (s : ℕ)
  | getCurrentResponse (s : ℕ)
  | get (s : ℕ)
  | reset (s : ℕ)
  | send (s : ℕ) (contents : RequestContents)
  | startGet (s : ℕ) (hasUrl : Bool)
  | requestStartGet (c : ℕ) (hasUrl : Bool)
  | copyRequest (i : ℕ)
  | moveRequest (i : ℕ)
  | destroyRequest (i : ℕ)
  | copyResponse (i : ℕ)
  | moveResponse (i : ℕ)
  | destroyResponse (i : ℕ)

/-- A call and what it leaves, if it returns. -/
def HandleCall.run (n : ℕ) (w : World) : HandleCall → Option World
  | .newChannel => some (Curl.newChannel w)
  | .deleteChannel c => Curl.deleteChannel w c
  | .newSession c => Curl.newSession w c
  | .deleteSession s => Curl.deleteSession n w s
  | .setState s state => Curl.setState w s state
  | .getCurrentRequest s => Curl.getCurrentRequest w s
  | .getCurrentResponse s => Curl.getCurrentResponse w s
  | .get s => Curl.sessionGet w s
  | .reset s => Curl.resetSession w s
  | .send s contents => Curl.sendSession w s contents
  | .startGet s hasUrl => Curl.sessionStartGet w s hasUrl
  | .requestStartGet c hasUrl => Curl.requestStartGet w c hasUrl
  | .copyRequest i => Curl.copyRequest w i
  | .moveRequest i => some (Curl.moveRequest w i)
  | .destroyRequest i => Curl.destroyRequest w i
  | .copyResponse i => Curl.copyResponse w i
  | .moveResponse i => some (Curl.moveResponse w i)
  | .destroyResponse i => Curl.destroyResponse n w i

/-- A call returns. -/
def HandleStep (w : World) (call : HandleCall) (w' : World) : Prop := ∃ n, call.run n w = some w'

end Intent.Old.Curl
