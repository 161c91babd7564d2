import Intent.Old.CurlResponse

/-!
# Curl sessions

The operations of `core/net/curl/session.cpp` on the state of a session and its current request
and response. Calls of libcurl succeed and leave this state alone, so that they have no place
here.

The documentation of `reset` says that it moves the state from idle to configuring. Nothing in
`reset_prelocked` does so, and nothing else leads back to configuring: `session_reuse_iff` says
that a session cannot be used again once a transfer was cleaned up.
-/

namespace Intent.Old.Curl

/-! ### HTTP methods -/

/-- `http_method_id`. -/
inductive HttpMethodId where
  | httpGet
  | httpPut
  | httpPost
  | httpOptions
  | httpHead
  | httpDelete
  | httpTrace
  | httpConnect
  | httpLink
  | httpUnlink
  | httpPatch
  | webdavPropfind
  | webdavProppatch
  | webdavMkcol
  | webdavCopy
  | webdavMove
  | webdavLock
  | webdavUnlock

/-- A string literal: it ends at its first NUL. -/
def cstring (s : String) : CString where
  chars := (s.toList.map schar).takeWhile (· ≠ 0)
  nonzero := by
    intro c hc
    simpa using List.mem_takeWhile_imp hc

/-- The names in `get_http_method_by_name`, in its order. The test of the first letter there only
saves comparisons. -/
def methodNames : List (String × HttpMethodId) :=
  [("get", .httpGet), ("post", .httpPost), ("put", .httpPut), ("patch", .httpPatch),
    ("propfind", .webdavPropfind), ("proppatch", .webdavProppatch), ("options", .httpOptions),
    ("head", .httpHead), ("delete", .httpDelete), ("trace", .httpTrace),
    ("connect", .httpConnect), ("copy", .webdavCopy), ("link", .httpLink), ("lock", .webdavLock),
    ("unlink", .httpUnlink), ("unlock", .webdavUnlock), ("move", .webdavMove),
    ("mkcol", .webdavMkcol)]

/-- `get_http_method_by_name`; its buffer has room for 19 characters. -/
def getHttpMethodByName (name : Option CString) : Option HttpMethodId :=
  name.bind fun name =>
    let normalized := (name.chars.take 19).map toLower
    let name :=
      if (cstring "http_").chars <+: normalized then normalized.drop 5
      else if (cstring "webdav_").chars <+: normalized then normalized.drop 7
      else normalized
    (methodNames.find? fun entry => (cstring entry.1).chars = name).map (·.2)

/-! ### Sessions -/

/-- A `char *` that its holder frees. -/
inductive OwnedString where
  | null
  | string (s : CString)
  | freed

/-- The fields of `request::impl_t` that the session uses. -/
structure Request where
  verb : Option CString
  url : OwnedString

/-- A new `request::impl_t`. -/
def Request.new : Request := ⟨none, .null⟩

/-- A new `response::impl_t`. -/
def Response.new : Response := ⟨[], 0, 0, none⟩

/-- `session::impl_t`: whether it has a channel, its state, and the current request and
response. -/
structure Session where
  attached : Bool
  state : SessionState
  currentRequest : Request
  currentResponse : Response

/-- A new session. -/
def Session.new : Session := ⟨true, .configuring, .new, .new⟩

/-- How `send` can fail: a `state_error`, or a use of memory that is undefined. -/
inductive Failure where
  | stateError (what : String)
  | undefined

/-- `get_name_for_session_state`. -/
def SessionState.name : SessionState → String
  | .configuring => "configuring"
  | .requesting => "requesting"
  | .waitingForResponse => "waiting_for_response"
  | .acceptingResponse => "accepting_response"
  | .idle => "idle"

/-- The text of the exception for a session that is not configuring. -/
def SessionState.cannotSend (s : SessionState) : String :=
  "Session state is '" ++ s.name ++ "'; request cannot be sent."

/-- `request::impl_t::set_url`: the old string is freed, and its pointer kept where there is no
new one. -/
def Request.setUrl (r : Request) (value : Option CString) : Request :=
  let url : OwnedString := match r.url with
    | .null => .null
    | _ => .freed
  match value with
  | some s => if s.chars = [] then { r with url } else { r with url := .string s }
  | none => { r with url }

/-- The verbs that are not copied. -/
def standardVerbs : List CString := ["GET", "POST", "PUT", "HEAD", "OPTIONS"].map cstring

/-- `request::impl_t::set_verb`. -/
def Request.setVerb (r : Request) (value : Option CString) : Request :=
  if r.verb.isSome ∧ value.isSome ∧ compareStrAsciiCaseInsensitive r.verb value = 0 then r
  else
    { r with
      verb := value.map fun s =>
        (standardVerbs.find? fun v =>
          compareStrAsciiCaseInsensitive (some v) (some s) = 0).getD s }

/-- `session::send_prelocked`. -/
def Session.sendPrelocked (s : Session) : Except Failure Session :=
  if ¬ s.attached then .error (.stateError "Session is detached from channel.")
  else if s.state ≠ .configuring then .error (.stateError s.state.cannotSend)
  else
    match s.currentRequest.url with
    | .null => .error (.stateError "No url has been configured in the request.")
    | .freed => .error .undefined
    | .string url =>
      if url.chars = [] then .error (.stateError "No url has been configured in the request.")
      else
        -- `set_curl_verb` looks into the method without a test
        match getHttpMethodByName s.currentRequest.verb with
        | none => .error .undefined
        | some _ => .ok { s with state := .requesting }

/-- `session::send`: what a failed call leaves, and how it failed. -/
def Session.send (s : Session) : Session × Option Failure :=
  match s.sendPrelocked with
  | .ok s' => (s', none)
  | .error e => (s, some e)

/-- `session::reset_prelocked`. -/
def Session.resetPrelocked (s : Session) : Session :=
  if s.state ≠ .configuring then { s with currentRequest := .new }
  else { s with currentRequest := { s.currentRequest with verb := none, url := .null } }

/-- `session::reset`. -/
def Session.reset (s : Session) : Session := s.resetPrelocked

/-- `session::start_get`. -/
def Session.startGet (s : Session) (url : Option CString) : Session × Option Failure :=
  let s := s.resetPrelocked
  let r := (s.currentRequest.setUrl url).setVerb (some (cstring "get"))
  Session.send { s with currentRequest := r }

/-- `session::impl_t::cleanup_after_transfer`, with the URL and the code that libcurl has. -/
def Session.cleanupAfterTransfer (s : Session) (effectiveUrl : CString) (n : ℤ) : Session :=
  if s.state = .idle then s
  else
    { s with
      state := .idle
      currentResponse := { s.currentResponse with
        effectiveUrl := some effectiveUrl
        statusCode := UInt16.ofInt n } }

/-- `request::set_url`, on a handle of the current request. -/
def Session.setUrl (s : Session) (url : Option CString) : Session :=
  match url with
  | some u =>
    if u.chars = [] then s
    else { s with currentRequest := { s.currentRequest with url := .string u } }
  | none => s

/-- `request::set_verb`, on a handle of the current request. -/
def Session.setVerb (s : Session) (verb : Option CString) : Session :=
  match verb with
  | some v =>
    if v.chars = [] then s
    else { s with currentRequest := { s.currentRequest with verb := some v } }
  | none => s

/-- What can happen to a session. -/
inductive Op where
  | send
  | startGet (url : Option CString)
  | reset
  | storeBytes (bytes : Text)
  | cleanupAfterTransfer (effectiveUrl : CString) (n : ℤ)
  | setUrl (url : Option CString)
  | setVerb (verb : Option CString)

/-- One operation. -/
def Session.step (s : Session) : Op → Session × Option Failure
  | .send => s.send
  | .startGet url => s.startGet url
  | .reset => (s.reset, none)
  | .storeBytes bytes =>
    let (_, state, r) := Curl.storeBytes s.state s.currentResponse bytes (.ofNat bytes.length)
    ({ s with state, currentResponse := r }, none)
  | .cleanupAfterTransfer effectiveUrl n => (s.cleanupAfterTransfer effectiveUrl n, none)
  | .setUrl url => (s.setUrl url, none)
  | .setVerb verb => (s.setVerb verb, none)

/-- A sequence of operations. -/
def Session.run (s : Session) (ops : List Op) : Session :=
  ops.foldl (fun s op => (s.step op).1) s

/-! ### States -/

section States

variable {s : Session}

theorem sendPrelocked_ok {s' : Session} (h : s.sendPrelocked = .ok s') :
    s.state = .configuring ∧ s' = { s with state := .requesting } := by
  unfold Session.sendPrelocked at h
  split_ifs at h with hattached hstate
  refine ⟨not_not.mp hstate, ?_⟩
  split at h
  · cases h
  · cases h
  · split_ifs at h
    split at h
    · cases h
    · exact (Except.ok.inj h).symm

/-- A session that is not configuring does not send. -/
theorem send_of_ne_configuring (hattached : s.attached = true) (h : s.state ≠ .configuring) :
    s.send = (s, some (.stateError s.state.cannotSend)) := by
  rw [Session.send, Session.sendPrelocked, if_neg (not_not.mpr hattached), if_pos h]

/-- `s'` has the channel of `s`, and its state unless a transfer began or goes on. -/
def Kept (s s' : Session) : Prop :=
  s'.attached = s.attached ∧
    (s'.state = s.state ∨ s'.state = .requesting ∨ s'.state = .acceptingResponse)

theorem kept_send (s : Session) : Kept s s.send.1 := by
  rw [Session.send]
  cases h : s.sendPrelocked with
  | error e => exact ⟨rfl, .inl rfl⟩
  | ok s' =>
    obtain ⟨-, rfl⟩ := sendPrelocked_ok h
    exact ⟨rfl, .inr (.inl rfl)⟩

/-- **`reset` leaves the state as it is.** -/
theorem reset_state (s : Session) : s.reset.attached = s.attached ∧ s.reset.state = s.state := by
  rw [Session.reset, Session.resetPrelocked]
  split_ifs
  · exact ⟨rfl, rfl⟩
  · exact ⟨rfl, rfl⟩

theorem setUrl_state (s : Session) (url : Option CString) :
    (s.setUrl url).attached = s.attached ∧ (s.setUrl url).state = s.state := by
  unfold Session.setUrl
  split
  · split_ifs
    · exact ⟨rfl, rfl⟩
    · exact ⟨rfl, rfl⟩
  · exact ⟨rfl, rfl⟩

theorem setVerb_state (s : Session) (verb : Option CString) :
    (s.setVerb verb).attached = s.attached ∧ (s.setVerb verb).state = s.state := by
  unfold Session.setVerb
  split
  · split_ifs
    · exact ⟨rfl, rfl⟩
    · exact ⟨rfl, rfl⟩
  · exact ⟨rfl, rfl⟩

theorem kept_startGet (s : Session) (url : Option CString) : Kept s (s.startGet url).1 := by
  obtain ⟨hattached, hstate⟩ := kept_send { s.resetPrelocked with
    currentRequest :=
      (s.resetPrelocked.currentRequest.setUrl url).setVerb (some (cstring "get")) }
  obtain ⟨hreset, hreset'⟩ := reset_state s
  refine ⟨hattached.trans hreset, hstate.imp_left fun h => h.trans hreset'⟩

theorem cleanupAfterTransfer_state (s : Session) (effectiveUrl : CString) (n : ℤ) :
    (s.cleanupAfterTransfer effectiveUrl n).attached = s.attached ∧
      (s.cleanupAfterTransfer effectiveUrl n).state = .idle := by
  unfold Session.cleanupAfterTransfer
  split_ifs with h
  · exact ⟨rfl, h⟩
  · exact ⟨rfl, rfl⟩

theorem accept_eq (s : SessionState) : s.accept = s ∨ s.accept = .acceptingResponse := by
  cases s <;> simp [SessionState.accept]

/-- The operation ends a transfer. -/
def Op.IsCleanup (op : Op) : Prop := ∃ effectiveUrl n, op = .cleanupAfterTransfer effectiveUrl n

/-- **One operation.** The end of a transfer makes a session idle. Every other operation keeps the
state, or goes on to one of a transfer. -/
theorem step_spec (s : Session) (op : Op) :
    op.IsCleanup ∧ (s.step op).1.attached = s.attached ∧ (s.step op).1.state = .idle ∨
      ¬ op.IsCleanup ∧ Kept s (s.step op).1 := by
  have hother : ∀ {s' : Session}, s'.attached = s.attached ∧ s'.state = s.state → Kept s s' :=
    fun h => ⟨h.1, .inl h.2⟩
  cases op with
  | cleanupAfterTransfer effectiveUrl n =>
    exact .inl ⟨⟨effectiveUrl, n, rfl⟩, cleanupAfterTransfer_state s effectiveUrl n⟩
  | send => exact .inr ⟨by simp [Op.IsCleanup], kept_send s⟩
  | startGet url => exact .inr ⟨by simp [Op.IsCleanup], kept_startGet s url⟩
  | reset => exact .inr ⟨by simp [Op.IsCleanup], hother (reset_state s)⟩
  | storeBytes bytes =>
    exact .inr ⟨by simp [Op.IsCleanup], rfl, (accept_eq s.state).imp_right .inr⟩
  | setUrl url => exact .inr ⟨by simp [Op.IsCleanup], hother (setUrl_state s url)⟩
  | setVerb verb => exact .inr ⟨by simp [Op.IsCleanup], hother (setVerb_state s verb)⟩

/-- **Every run.** A session keeps its channel; it is idle at the end only if a transfer ended
on the way. -/
theorem run_spec (ops : List Op) :
    (s.run ops).attached = s.attached ∧
      ((s.run ops).state = .idle → s.state = .idle ∨ ∃ op ∈ ops, op.IsCleanup) := by
  induction ops generalizing s with
  | nil => exact ⟨rfl, .inl⟩
  | cons op ops ih =>
    obtain ⟨hattached, hidle⟩ := ih (s := (s.step op).1)
    -- a session that is idle later, and was not before, was made so by a later operation
    rcases step_spec s op with ⟨hclean, hkept, -⟩ | ⟨-, hkept, hstate⟩
    · exact ⟨hattached.trans hkept, fun _ => .inr ⟨op, List.mem_cons_self, hclean⟩⟩
    · refine ⟨hattached.trans hkept, fun h => ?_⟩
      rcases hidle h with hs | ⟨op', hmem, hclean⟩
      · rw [hs] at hstate
        exact .inl (by simpa [eq_comm] using hstate)
      · exact .inr ⟨op', List.mem_cons_of_mem op hmem, hclean⟩

end States

/-! ### Reuse -/

/-- The result of a call is not a `state_error`. -/
def NoStateError (r : Session × Option Failure) : Prop := ∀ what, r.2 ≠ some (.stateError what)

/-- An idle session can be used again: `reset` makes it configuring, a `send` after it is accepted
when the current request has a URL, and so is `start_get`. -/
def Reusable (s : Session) : Prop :=
  s.state = .idle →
    s.reset.state = .configuring ∧
      (∀ url : CString, url.chars ≠ [] → NoStateError (s.reset.setUrl (some url)).send) ∧
      ∀ url : CString, url.chars ≠ [] → NoStateError (s.startGet (some url))

/-- An idle session stays idle, and throws. -/
theorem idle_throws {s : Session} (hattached : s.attached = true) (h : s.state = .idle) :
    s.reset.state = .idle ∧
      (∀ url, (s.reset.setUrl url).send.2 = some (.stateError SessionState.idle.cannotSend)) ∧
      ∀ url, (s.startGet url).2 = some (.stateError SessionState.idle.cannotSend) := by
  have hsend : ∀ {s' : Session}, s'.attached = true → s'.state = .idle →
      s'.send.2 = some (.stateError SessionState.idle.cannotSend) := by
    intro s' hattached' hstate
    rw [send_of_ne_configuring hattached' (by simp [hstate]), hstate]
  obtain ⟨hreset, hreset'⟩ := reset_state s
  refine ⟨hreset'.trans h, fun url => ?_, fun url => ?_⟩
  · obtain ⟨hurl, hurl'⟩ := setUrl_state s.reset url
    exact hsend (hurl.trans (hreset.trans hattached)) (hurl'.trans (hreset'.trans h))
  · exact hsend (hreset.trans hattached) (hreset'.trans h)

/-- **Sessions are not reused.** A run meets its documentation exactly if no transfer is cleaned up
in it, so that the session is never idle. Of an idle session, `reset` keeps the state, and every
`send` or `start_get` after it throws. -/
theorem session_reuse_iff (ops : List Op) :
    ((∀ before, before <+: ops → Reusable (Session.new.run before)) ↔
        ∀ op ∈ ops, ¬ op.IsCleanup) ∧
      ∀ before, before <+: ops → (Session.new.run before).state = .idle →
        (Session.new.run before).reset.state = .idle ∧
        (∀ url, ((Session.new.run before).reset.setUrl url).send.2 =
          some (.stateError SessionState.idle.cannotSend)) ∧
        ∀ url, ((Session.new.run before).startGet url).2 =
          some (.stateError SessionState.idle.cannotSend) := by
  refine ⟨⟨fun hreusable op hop hclean => ?_, fun hops before hbefore hidle => ?_⟩,
    fun before _ hidle => idle_throws (run_spec before).1 hidle⟩
  · -- right after the operation, the session is idle
    obtain ⟨before, after, rfl⟩ := List.append_of_mem hop
    have hrun : Session.new.run (before ++ [op]) = ((Session.new.run before).step op).1 := by
      rw [Session.run, List.foldl_concat]
      rfl
    have hidle : (Session.new.run (before ++ [op])).state = .idle := by
      rw [hrun]
      rcases step_spec (Session.new.run before) op with ⟨-, -, h⟩ | ⟨hnot, -⟩
      · exact h
      · exact absurd hclean hnot
    have hconfiguring := (hreusable (before ++ [op]) ⟨after, by simp⟩ hidle).1
    rw [(idle_throws (run_spec _).1 hidle).1] at hconfiguring
    cases hconfiguring
  · -- it is never idle
    exfalso
    rcases (run_spec before).2 hidle with h | ⟨op, hop, hclean⟩
    · cases h
    · exact hops op (hbefore.subset hop) hclean

/-- A first `start_get` is accepted, and its transfer ends. The session is idle then and cannot be
used again. -/
theorem session_reuse_after_get :
    (Session.new.startGet (some (cstring "u"))).2.isNone = true ∧
      ¬ Reusable (Session.new.run
        [.startGet (some (cstring "u")), .cleanupAfterTransfer (cstring "u") 200]) := by
  refine ⟨by decide +kernel, fun hreusable => ?_⟩
  have hidle : (Session.new.run [.startGet (some (cstring "u")),
      .cleanupAfterTransfer (cstring "u") 200]).state = .idle :=
    (cleanupAfterTransfer_state (Session.new.startGet (some (cstring "u"))).1
      (cstring "u") 200).2
  have hconfiguring := (hreusable hidle).1
  rw [(reset_state _).2, hidle] at hconfiguring
  cases hconfiguring

end Intent.Old.Curl
