import Intent.Old.CurlSession

/-!
# Rejected requests

What a `start_get` that throws leaves behind. It empties the current request, or replaces it, and
configures it before `send_prelocked` makes its checks; nothing is put back when one of them fails.
A session is followed with the identity of its current request, over runs in which its channel may
go away.

`startGet_intact_iff` says when a rejected `start_get` leaves everything as it was.
-/

namespace Intent.Old.Curl

/-! ### The current request by identity -/

/-- A session, and which of its requests is the current one: their number so far. -/
structure Tracked where
  session : Session
  requestId : ℕ

/-- A new session with its first request. -/
def Tracked.new : Tracked := ⟨.new, 0⟩

/-- `session::reset_prelocked` makes a new `request::impl_t` unless the session is configuring. -/
def Tracked.resetPrelocked (t : Tracked) : Tracked where
  session := t.session.resetPrelocked
  requestId := if t.session.state ≠ .configuring then t.requestId + 1 else t.requestId

/-- `session::start_get`: no other step of it makes a request. -/
def Tracked.startGet (t : Tracked) (url : Option CString) : Tracked × Option Failure :=
  let (session, failure) := t.session.startGet url
  ({ t.resetPrelocked with session }, failure)

/-- What can happen to a session and around it: an operation, or the end of its channel, which
breaks the reference to it. -/
inductive Event where
  | op (op : Op)
  | detach

/-- One event. -/
def Tracked.step (t : Tracked) : Event → Tracked
  | .op (.startGet url) => (t.startGet url).1
  | .op .reset => t.resetPrelocked
  | .op op => { t with session := (t.session.step op).1 }
  | .detach => { t with session := { t.session with attached := false } }

/-- A sequence of events. -/
def Tracked.run (t : Tracked) (events : List Event) : Tracked := events.foldl Tracked.step t

/-- The operations of a tracked session are those of its session. -/
theorem step_session (t : Tracked) (op : Op) :
    (t.step (.op op)).session = (t.session.step op).1 := by
  cases op with
  | startGet url => rfl
  | reset => rfl
  | send => rfl
  | storeBytes bytes => rfl
  | cleanupAfterTransfer effectiveUrl n => rfl
  | setUrl url => rfl
  | setVerb verb => rfl

/-- The two have the same state, the same current request with the same URL and verb, and the same
response. -/
structure Intact (t t' : Tracked) : Prop where
  state : t'.session.state = t.session.state
  requestId : t'.requestId = t.requestId
  url : t'.session.currentRequest.url = t.session.currentRequest.url
  verb : t'.session.currentRequest.verb = t.session.currentRequest.verb
  response : t'.session.currentResponse = t.session.currentResponse

/-! ### `start_get` -/

section StartGet

/-- What `set_url` makes of a request without a URL. -/
def givenUrl : Option CString → OwnedString
  | some url => if url.chars = [] then .null else .string url
  | none => .null

/-- The request that `start_get` configures. -/
def Request.get (url : Option CString) : Request := ⟨some (cstring "GET"), givenUrl url⟩

/-- There is something in the argument. -/
def HasText (url : Option CString) : Prop := ∃ u, url = some u ∧ u.chars ≠ []

theorem hasText_or (url : Option CString) :
    (∃ u, u.chars ≠ [] ∧ url = some u ∧ givenUrl url = .string u) ∨
      ¬ HasText url ∧ givenUrl url = .null := by
  cases url with
  | none => exact .inr ⟨fun ⟨_, h, _⟩ => Option.some_ne_none _ h.symm, rfl⟩
  | some u =>
    by_cases hu : u.chars = []
    · refine .inr ⟨fun ⟨u', h, hu'⟩ => hu' ?_, if_pos hu⟩
      rw [← Option.some.inj h, hu]
    · exact .inl ⟨u, hu, rfl, if_neg hu⟩

theorem setUrl_new (url : Option CString) :
    Request.new.setUrl url = ⟨none, givenUrl url⟩ := by
  cases url with
  | none => rfl
  | some u =>
    simp only [Request.setUrl, Request.new, givenUrl]
    split_ifs <;> rfl

/-- The verb is one of those that are not copied. -/
theorem setVerb_get (url : OwnedString) :
    (Request.mk none url).setVerb (some (cstring "get")) = ⟨some (cstring "GET"), url⟩ := by
  have hfind : standardVerbs.find? (fun v =>
      compareStrAsciiCaseInsensitive (some v) (some (cstring "get")) = 0) =
        some (cstring "GET") := by
    rw [standardVerbs, List.map_cons, List.find?_cons_of_pos (by decide +kernel)]
  simp only [Request.setVerb, Option.isSome_none, Bool.false_eq_true, false_and, if_false,
    Option.map_some, hfind, Option.getD_some]

/-- Both branches leave the session with an empty request. -/
theorem resetPrelocked_eq (s : Session) : s.resetPrelocked = { s with currentRequest := .new } := by
  rw [Session.resetPrelocked]
  split_ifs
  · rfl
  · rfl

theorem startGet_eq (s : Session) (url : Option CString) :
    s.startGet url = Session.send { s with currentRequest := .get url } := by
  rw [Session.startGet, resetPrelocked_eq]
  simp only [setUrl_new, setVerb_get]
  rfl

/-- **`start_get`.** The request is accepted exactly if the session has its channel and is
configuring, and a URL is given. Otherwise the call throws a `state_error`, with the request
configured already. -/
theorem startGet_cases (s : Session) (url : Option CString) :
    (s.attached = true ∧ s.state = .configuring ∧ HasText url ∧
        s.startGet url = ({ s with state := .requesting, currentRequest := .get url }, none)) ∨
      ¬ (s.attached = true ∧ s.state = .configuring ∧ HasText url) ∧
        ∃ what, s.startGet url =
          ({ s with currentRequest := .get url }, some (.stateError what)) := by
  rw [startGet_eq, Session.send, Session.sendPrelocked]
  by_cases hattached : s.attached = true
  · by_cases hstate : s.state = .configuring
    · rw [if_neg (not_not.mpr hattached), if_neg (not_not.mpr hstate)]
      rcases hasText_or url with ⟨u, hu, rfl, hgiven⟩ | ⟨hnone, hgiven⟩
      · -- the verb has a method, so that the look into it is a defined one
        have hmethod : (getHttpMethodByName (some (cstring "GET"))).isSome = true := by
          decide +kernel
        obtain ⟨method, hmethod⟩ := Option.isSome_iff_exists.mp hmethod
        refine .inl ⟨hattached, hstate, ⟨u, rfl, hu⟩, ?_⟩
        simp only [Request.get, hgiven, if_neg hu, hmethod]
      · refine .inr ⟨fun h => hnone h.2.2, "No url has been configured in the request.", ?_⟩
        simp only [Request.get, hgiven]
    · refine .inr ⟨fun h => hstate h.2.1, s.state.cannotSend, ?_⟩
      rw [if_neg (not_not.mpr hattached), if_pos hstate]
  · refine .inr ⟨fun h => hattached h.1, "Session is detached from channel.", ?_⟩
    rw [if_pos hattached]

/-- The configured request is the one that was there. -/
theorem intact_get_iff (t : Tracked) (url : Option CString) :
    Intact t { t.resetPrelocked with
        session := { t.session with currentRequest := .get url } } ↔
      t.session.state = .configuring ∧ t.session.currentRequest = .get url := by
  constructor
  · intro h
    have hid : t.resetPrelocked.requestId = t.requestId := h.requestId
    refine ⟨?_, ?_⟩
    · -- a new request is not the old one
      by_contra hstate
      rw [Tracked.resetPrelocked, if_pos hstate] at hid
      exact Nat.succ_ne_self _ hid
    · have hurl := h.url
      have hverb := h.verb
      calc t.session.currentRequest
          = ⟨t.session.currentRequest.verb, t.session.currentRequest.url⟩ := rfl
        _ = .get url := by rw [← hurl, ← hverb]
  · rintro ⟨hstate, hrequest⟩
    refine ⟨rfl, ?_, by rw [hrequest], by rw [hrequest], rfl⟩
    exact if_neg (not_not.mpr hstate)

end StartGet

/-- **Rejected requests.** In a state that is reached, a `start_get` that throws a `state_error`
leaves the session intact exactly if the session is configuring and either nothing is rejected, as
the session has its channel and a URL is given, or the current request is already a GET of the URL
given. -/
theorem startGet_intact_iff (events : List Event) (url : Option CString) :
    (∀ what, ((Tracked.new.run events).startGet url).2 = some (.stateError what) →
        Intact (Tracked.new.run events) ((Tracked.new.run events).startGet url).1) ↔
      (Tracked.new.run events).session.state = .configuring ∧
        ((Tracked.new.run events).session.attached = true ∧ HasText url ∨
          (Tracked.new.run events).session.currentRequest = .get url) := by
  generalize Tracked.new.run events = t
  rcases startGet_cases t.session url with ⟨hattached, hstate, htext, h⟩ | ⟨hnot, what, h⟩
  · simp only [Tracked.startGet, h]
    exact ⟨fun _ => ⟨hstate, .inl ⟨hattached, htext⟩⟩, fun _ _ hwhat => by cases hwhat⟩
  · have hintact := intact_get_iff t url
    simp only [Tracked.startGet, h]
    constructor
    · intro hall
      obtain ⟨hstate, hrequest⟩ := hintact.mp (hall what rfl)
      exact ⟨hstate, .inr hrequest⟩
    · rintro ⟨hstate, ⟨hattached, htext⟩ | hrequest⟩ - -
      · exact absurd ⟨hattached, hstate, htext⟩ hnot
      · exact hintact.mpr ⟨hstate, hrequest⟩

/-- A second `start_get` while the first one is under way throws, and the session has another
current request afterwards. -/
theorem startGet_replaces :
    let t := Tracked.new.run [.op (.startGet (some (cstring "u")))]
    (t.startGet (some (cstring "v"))).2 =
        some (.stateError SessionState.requesting.cannotSend) ∧
      ¬ Intact t (t.startGet (some (cstring "v"))).1 := by
  intro t
  have hstate : t.session.state = .requesting := by decide +kernel
  have hne : t.session.state ≠ .configuring := by simp [hstate]
  constructor
  · have hsend := send_of_ne_configuring
      (s := { t.session with currentRequest := .get (some (cstring "v")) })
      (by decide +kernel) hne
    have hget := startGet_eq t.session (some (cstring "v"))
    rw [hsend, hstate] at hget
    exact congrArg (·.2) hget
  · intro hintact
    have hid : t.resetPrelocked.requestId = t.requestId := hintact.requestId
    rw [Tracked.resetPrelocked, if_pos hne] at hid
    exact Nat.succ_ne_self _ hid

end Intent.Old.Curl
