import Intent.Old.CurlHandlesSessions

/-!
# Runs of curl handles

Users call only what is there, delete only sessions that they made, and each before its channel
(`HandlesDisciplined`). `handles_of_run` says that such runs never look at an object that was
deleted. `leaked_of_copy` and `owned_never_deleted` say which objects are never deleted, and
`never_open` that a channel is never open, so that it starts a thread for every request that is
sent and does not break the links of its sessions when it is deleted.
-/

namespace Intent.Old.Curl

open CountedStore

variable {w w' : World} {leaked : List ℕ} {x s c i n : ℕ} {session : SessionImpl}
  {v : ResponseImpl} {call : HandleCall}

/-! ### Discipline -/

/-- A session that was not deleted, nor was its channel. -/
def Usable (w : World) (s : ℕ) : Prop :=
  ∃ session, w.session? s = some session ∧
    ∀ c ∈ session.channel, (w.channel? c).isSome = true

/-- A response owns the session. -/
def OwnedByResponse (w : World) (s : ℕ) : Prop :=
  ∃ x v, w.responses.value? x = some v ∧ v.sessionOwnedByMe = true ∧ v.session = some s

/-- Calls on objects that are there, where no count overflows. A request that is sent has a method
if it has a URL. -/
def HandlesDisciplined (w : World) : HandleCall → Prop
  | .newChannel | .moveRequest _ | .destroyRequest _ | .moveResponse _ | .destroyResponse _ => True
  | .deleteChannel c | .newSession c | .requestStartGet c _ => (w.channel? c).isSome = true
  | .deleteSession s => Usable w s ∧ ¬ OwnedByResponse w s
  | .setState s _ | .get s => (w.session? s).isSome = true
  | .getCurrentRequest s | .reset s =>
    ∃ session, w.session? s = some session ∧ RefRoom w.requests session.currentRequest
  | .getCurrentResponse s =>
    ∃ session, w.session? s = some session ∧ RefRoom w.responses session.currentResponse
  | .send s contents =>
    Usable w s ∧ ∀ session ∈ w.session? s, RefRoom w.responses session.currentResponse ∧
      (session.state = .configuring → contents ≠ .undefined)
  | .startGet s _ =>
    Usable w s ∧ ∀ session ∈ w.session? s, RefRoom w.responses session.currentResponse
  | .copyRequest i => (w.request? i).isSome = true
  | .copyResponse i => ∃ x, w.response? i = some x ∧ RefRoom w.responses x

/-! ### One call -/

theorem Settles.const (w : World) : Settles (fun _ => some w) w :=
  ⟨fun _ _ hn => (Option.some.inj hn).symm, 0, rfl⟩

theorem WorldOk.getCurrentRequest (hw : WorldOk w leaked) (hs : w.session? s = some session)
    (hroom : RefRoom w.requests session.currentRequest) :
    ∃ w', getCurrentRequest w s = some w' ∧ WorldOk w' leaked ∧ KeepsOwned w w' := by
  obtain ⟨w', hpoint, hw'⟩ :=
    hw.pointRequest (isSome_cell?_of_value? (hw.currentRequest s session hs)) hroom
  exact ⟨w', by rw [Curl.getCurrentRequest, hs, Option.bind_some, hpoint], hw'⟩

theorem WorldOk.getCurrentResponse (hw : WorldOk w leaked) (hs : w.session? s = some session)
    (hroom : RefRoom w.responses session.currentResponse) :
    ∃ w', getCurrentResponse w s = some w' ∧ WorldOk w' leaked ∧ KeepsOwned w w' := by
  obtain ⟨v, hv, -⟩ := hw.currentResponse s session hs
  obtain ⟨w', hpoint, hw'⟩ := hw.pointResponse (isSome_cell?_of_value? hv) hroom
  exact ⟨w', by rw [Curl.getCurrentResponse, hs, Option.bind_some, hpoint], hw'⟩

theorem KeepsOwned.of_responses_eq {w₁ w₂ : World} (h : KeepsOwned w₁ w')
    (heq : w₁.responses = w₂.responses) : KeepsOwned w₂ w' :=
  fun x v hx hown => h x v (heq ▸ hx) hown

theorem WorldOk.reset (hw : WorldOk w leaked) (hs : w.session? s = some session)
    (hroom : RefRoom w.requests session.currentRequest) :
    ∃ w', resetSession w s = some w' ∧ WorldOk w' leaked ∧ KeepsOwned w w' := by
  obtain ⟨w₁, session₁, hreset, hw₁, hroom₁, hs₁, -, -, -, -, hresponses⟩ := hw.resetPrelocked hs
  obtain ⟨w', hget, hw', hkeeps⟩ := hw₁.getCurrentRequest hs₁ (hroom₁ hroom)
  exact ⟨w', by rw [resetSession, hreset, Option.bind_some, hget], hw',
    hkeeps.of_responses_eq hresponses⟩

theorem WorldOk.send (hw : WorldOk w leaked) (hs : w.session? s = some session)
    (hc : ∀ c ∈ session.channel, (w.channel? c).isSome = true)
    (hroom : RefRoom w.responses session.currentResponse) {contents : RequestContents}
    (hcontents : session.state = .configuring → contents ≠ .undefined) :
    ∃ w', sendSession w s contents = some w' ∧ WorldOk w' leaked ∧ KeepsOwned w w' := by
  obtain ⟨w₁, returned, session₁, hsend, hw₁, hs₁, hcurrent, hresponses⟩ :=
    hw.sendPrelocked hs hc hcontents
  have hkeeps : KeepsOwned w w₁ := fun x v hx _ => by rw [hresponses, hx]
  rw [← hresponses, ← hcurrent] at hroom
  obtain ⟨w₂, hget, hw₂, hkeeps₂⟩ := hw₁.getCurrentResponse hs₁ hroom
  rw [sendSession, hsend, Option.bind_some]
  cases returned with
  | false => exact ⟨w₁, rfl, hw₁, hkeeps⟩
  | true => exact ⟨w₂, hget, hw₂, hkeeps₂.of_responses_eq hresponses⟩

theorem WorldOk.startGet (hw : WorldOk w leaked) (hs : w.session? s = some session)
    (hc : ∀ c ∈ session.channel, (w.channel? c).isSome = true)
    (hroom : RefRoom w.responses session.currentResponse) (hasUrl : Bool) :
    ∃ w', sessionStartGet w s hasUrl = some w' ∧ WorldOk w' leaked ∧ KeepsOwned w w' := by
  obtain ⟨w₁, session₁, hreset, hw₁, -, hs₁, hchannel, -, hcurrent, hchannels, hresponses⟩ :=
    hw.resetPrelocked hs
  have hc₁ : ∀ c ∈ session₁.channel, (w₁.channel? c).isSome = true := by
    intro c hmem
    rw [World.channel?, hchannels]
    exact hc c (hchannel ▸ hmem)
  rw [← hresponses, ← hcurrent] at hroom
  obtain ⟨w₂, hsend, hw₂, hkeeps⟩ := hw₁.send hs₁ hc₁ hroom fun _ => getContents_ne_undefined hasUrl
  exact ⟨w₂, by rw [sessionStartGet, hreset, Option.bind_some, hsend], hw₂,
    hkeeps.of_responses_eq hresponses⟩

/-- A call that is not a copy of a request. -/
theorem WorldOk.call_of_settles {f : ℕ → Option World}
    (h : ∃ w', Settles f w' ∧ WorldOk w' leaked ∧ KeepsOwned w w') :
    ∃ w' leaked', Settles f w' ∧ WorldOk w' leaked' ∧ KeepsOwned w w' ∧
      (leaked' = leaked ∨
        (∃ i, call = .copyRequest i) ∧ leaked' = w.requests.length :: leaked) := by
  obtain ⟨w', hsettles, hw', hkeeps⟩ := h
  exact ⟨w', leaked, hsettles, hw', hkeeps, .inl rfl⟩

/-- The same for a call that does not need fuel. -/
theorem WorldOk.call_of_some {r : Option World}
    (h : ∃ w', r = some w' ∧ WorldOk w' leaked ∧ KeepsOwned w w') :
    ∃ w' leaked', Settles (fun _ => r) w' ∧ WorldOk w' leaked' ∧ KeepsOwned w w' ∧
      (leaked' = leaked ∨
        (∃ i, call = .copyRequest i) ∧ leaked' = w.requests.length :: leaked) := by
  obtain ⟨w', rfl, hw', hkeeps⟩ := h
  exact ⟨w', leaked, .const w', hw', hkeeps, .inl rfl⟩

/-- **One call.** A disciplined call returns and keeps what holds; only a copy of a request
leaks. -/
theorem WorldOk.step (hw : WorldOk w leaked) (hcall : HandlesDisciplined w call) :
    ∃ w' leaked', Settles (fun n => call.run n w) w' ∧ WorldOk w' leaked' ∧ KeepsOwned w w' ∧
      (leaked' = leaked ∨
        (∃ i, call = .copyRequest i) ∧ leaked' = w.requests.length :: leaked) := by
  have hkept : KeepsOwned w w := fun x v hx _ => hx
  cases call with
  | newChannel =>
    refine WorldOk.call_of_some ⟨_, rfl, hw.withChannels fun channel hmem => ?_, hkept⟩
    rcases List.mem_append.mp hmem with hmem | hmem
    · exact hw.closed channel hmem
    · rw [List.mem_singleton.mp hmem]
  | deleteChannel c => exact WorldOk.call_of_some (hw.deleteChannel hcall)
  | newSession c =>
    obtain ⟨w', hnew, hw', -, hresponses, -⟩ := hw.newSession hcall
    refine WorldOk.call_of_some ⟨w', hnew, hw', fun x v hx _ => ?_⟩
    rw [hresponses, value?_alloc, if_neg (Nat.ne_of_lt (lt_length_of_value? hx)), hx]
  | deleteSession s =>
    obtain ⟨⟨session, hs, hc⟩, hvisible⟩ := hcall
    obtain ⟨v, hv, hvs⟩ := hw.currentResponse s session hs
    have hown : v.sessionOwnedByMe = false :=
      Bool.eq_false_iff.mpr fun hown => hvisible ⟨_, v, hv, hown, hvs⟩
    exact WorldOk.call_of_settles (hw.deleteSession hs hc hv hown)
  | setState s state =>
    obtain ⟨session, hs⟩ := Option.isSome_iff_exists.mp hcall
    have hset : setState w s state =
        some { w with sessions := w.sessions.set s { session with state } } := by
      rw [setState, hs, Option.map_some]
    exact WorldOk.call_of_some ⟨_, hset, hw.withState hs state hw.closed, fun x v hx _ => hx⟩
  | getCurrentRequest s =>
    obtain ⟨session, hs, hroom⟩ := hcall
    exact WorldOk.call_of_some (hw.getCurrentRequest hs hroom)
  | getCurrentResponse s =>
    obtain ⟨session, hs, hroom⟩ := hcall
    exact WorldOk.call_of_some (hw.getCurrentResponse hs hroom)
  | get s => exact WorldOk.call_of_some (hw.sessionGet hcall)
  | reset s =>
    obtain ⟨session, hs, hroom⟩ := hcall
    exact WorldOk.call_of_some (hw.reset hs hroom)
  | send s contents =>
    obtain ⟨⟨session, hs, hc⟩, hsession⟩ := hcall
    obtain ⟨hroom, hcontents⟩ := hsession session hs
    exact WorldOk.call_of_some (hw.send hs hc hroom hcontents)
  | startGet s hasUrl =>
    obtain ⟨⟨session, hs, hc⟩, hroom⟩ := hcall
    exact WorldOk.call_of_some (hw.startGet hs hc (hroom session hs) hasUrl)
  | requestStartGet c hasUrl => exact WorldOk.call_of_some (hw.requestStartGet hcall hasUrl)
  | copyRequest i =>
    obtain ⟨w', hcopy, hw', hkeeps⟩ := hw.copyRequest hcall
    refine ⟨w', w.requests.length :: leaked, ?_, hw', hkeeps, .inr ⟨⟨i, rfl⟩, rfl⟩⟩
    dsimp only [HandleCall.run]
    rw [hcopy]
    exact .const w'
  | moveRequest i => exact WorldOk.call_of_some ⟨_, rfl, hw.moveRequest i, hkept⟩
  | destroyRequest i => exact WorldOk.call_of_some (hw.destroyRequest i)
  | copyResponse i =>
    obtain ⟨x, hx, hroom⟩ := hcall
    have hcell := (hw.responses x).1.mpr (responseHolders_pos hx)
    obtain ⟨w', hpoint, hw'⟩ := hw.pointResponse hcell hroom
    have hcopy : copyResponse w i = some w' := by
      rw [copyResponse, hx, Option.bind_some, hpoint]
    exact WorldOk.call_of_some ⟨w', hcopy, hw'⟩
  | moveResponse i => exact WorldOk.call_of_some ⟨_, rfl, hw.moveResponse i, hkept⟩
  | destroyResponse i => exact WorldOk.call_of_settles (hw.destroyResponse i)

/-! ### Runs -/

/-- A run of disciplined calls from one world to another. -/
abbrev HandlesRun (w w' : World) : Prop := Reaches HandleStep HandlesDisciplined w w'

theorem worldOk_empty : WorldOk .empty [] := by
  have hnone : ∀ {α : Type} (x : ℕ), CountedStore.value? ([] : CountedStore α) x = none := by
    intro α x
    rw [value?, cell?, List.getElem?_nil]
    rfl
  refine ⟨fun x => ⟨iff_of_false Bool.false_ne_true (Nat.lt_irrefl 0), fun cell hx => ?_⟩,
    fun x => ⟨iff_of_false Bool.false_ne_true (Nat.lt_irrefl 0), fun cell hx => ?_⟩,
    fun x s hx => ?_, fun x v s hx _ => ?_, fun s session hs => ?_, fun s session hs => ?_,
    fun x v hx _ => ?_, fun session hs => ?_, fun session hs => ?_, fun channel hc => ?_⟩
  · cases hx
  · cases hx
  · rw [World.empty, hnone] at hx
    cases hx
  · rw [World.empty, hnone] at hx
    cases hx
  · cases hs
  · cases hs
  · rw [World.empty, hnone] at hx
    cases hx
  · cases hs
  · cases hs
  · cases hc

/-- What a step leaves. -/
theorem WorldOk.of_step (hw : WorldOk w leaked) (hcall : HandlesDisciplined w call)
    (hstep : HandleStep w call w') : ∃ leaked', WorldOk w' leaked' ∧ KeepsOwned w w' ∧
      (leaked' = leaked ∨
        (∃ i, call = .copyRequest i) ∧ leaked' = w.requests.length :: leaked) := by
  obtain ⟨w₁, leaked', hsettles, hw', hkeeps, hleaked⟩ := hw.step hcall
  obtain ⟨n, hn⟩ := hstep
  obtain rfl := hsettles.eq_of_some n w' hn
  exact ⟨leaked', hw', hkeeps, hleaked⟩

/-- What leaked stays so. -/
theorem WorldOk.of_run (hw : WorldOk w leaked) (hrun : HandlesRun w w') :
    ∃ leaked', WorldOk w' leaked' ∧ ∀ x ∈ leaked, x ∈ leaked' := by
  refine hrun.invariant (P := fun w => ∃ leaked', WorldOk w leaked' ∧ ∀ x ∈ leaked, x ∈ leaked')
    ⟨leaked, hw, fun x hx => hx⟩ ?_
  rintro w₁ w₂ call ⟨leaked₁, hw₁, hsub⟩ hcall hstep
  obtain ⟨leaked₂, hw₂, -, rfl | ⟨-, rfl⟩⟩ := hw₁.of_step hcall hstep
  · exact ⟨leaked₂, hw₂, hsub⟩
  · exact ⟨_, hw₂, fun x hx => List.mem_cons_of_mem _ (hsub x hx)⟩

/-- **Copies of requests leak.** As long as no request was copied, a request is there exactly as
long as a handle or a session holds it. A copy is never deleted: it is there after whatever follows,
with a count above the number of its holders. -/
theorem leaked_of_copy :
    (∀ w, Reaches HandleStep
        (fun w call => HandlesDisciplined w call ∧ ∀ i, call ≠ .copyRequest i) .empty w →
      w.requests.Exact (requestHolders w.requestHandles w.sessions)) ∧
    ∀ w i w' w'', HandlesRun .empty w → HandlesDisciplined w (.copyRequest i) →
      HandleStep w (.copyRequest i) w' → HandlesRun w' w'' →
      ∃ cell, w''.requests.cell? w.requests.length = some cell ∧
        requestHolders w''.requestHandles w''.sessions w.requests.length < cell.count.toNat := by
  constructor
  · intro w hrun
    have hw : WorldOk w [] := by
      refine hrun.invariant (P := fun w => WorldOk w []) worldOk_empty ?_
      rintro w₁ w₂ call hw₁ ⟨hcall, hcopy⟩ hstep
      obtain ⟨leaked, hw₂, -, rfl | ⟨⟨i, hi⟩, -⟩⟩ := hw₁.of_step hcall hstep
      · exact hw₂
      · exact absurd hi (hcopy i)
    exact hw.requests
  · intro w i w' w'' hrun hcall hstep hrun'
    obtain ⟨leaked, hw, -⟩ := worldOk_empty.of_run hrun
    obtain ⟨w₁, hcopy, hw₁, -⟩ := hw.copyRequest hcall
    obtain ⟨n, hn⟩ := hstep
    obtain rfl := Option.some.inj (hcopy.symm.trans hn)
    obtain ⟨leaked', hw', hsub⟩ := hw₁.of_run hrun'
    have hpos : 0 < leaked'.count w.requests.length :=
      List.count_pos_iff.mpr (hsub _ List.mem_cons_self)
    obtain ⟨cell, hcell⟩ := hw'.requests.exists_cell (Nat.add_pos_right _ hpos)
    refine ⟨cell, hcell, ?_⟩
    rw [(hw'.requests _).2 cell hcell]
    exact Nat.lt_add_of_pos_right hpos

/-- **Sessions that their responses own** are never deleted, nor are these responses, although their
handles are gone: the session holds the response. -/
theorem owned_never_deleted (hrun : HandlesRun .empty w) (hv : w.responses.value? x = some v)
    (hown : v.sessionOwnedByMe = true) (hs : v.session = some s) (hrun' : HandlesRun w w') :
    w'.responses.value? x = some v ∧
      ∃ session, w'.session? s = some session ∧ session.currentResponse = x := by
  obtain ⟨leaked, hw, -⟩ := worldOk_empty.of_run hrun
  obtain ⟨⟨leaked', hw'⟩, hv'⟩ : (∃ leaked', WorldOk w' leaked') ∧
      w'.responses.value? x = some v := by
    refine hrun'.invariant
      (P := fun w => (∃ leaked', WorldOk w leaked') ∧ w.responses.value? x = some v)
      ⟨⟨leaked, hw⟩, hv⟩ ?_
    rintro w₁ w₂ call ⟨⟨leaked₁, hw₁⟩, hv₁⟩ hcall hstep
    obtain ⟨leaked₂, hw₂, hkeeps, -⟩ := hw₁.of_step hcall hstep
    exact ⟨⟨leaked₂, hw₂⟩, hkeeps x v hv₁ hown⟩
  obtain ⟨t, session, ht, hsession, hcurrent⟩ := hw'.owned x v hv' hown
  obtain rfl := Option.some.inj (hs.symm.trans ht)
  exact ⟨hv', session, hsession, hcurrent⟩

section ShortRuns

/-- A channel. -/
def oneChannel : World := newChannel .empty

/-- A request and a response in use. -/
def oneSession : World :=
  { oneChannel with
    requests := [some ⟨1, some 0⟩]
    responses := [some ⟨1, ⟨some 0, false⟩⟩]
    sessions := [⟨true, some 0, .configuring, 0, 0⟩]
    channels := [⟨true, false, 0, [0]⟩] }

/-- With a handle of the request. -/
def oneHandle : World :=
  { oneSession with
    requests := [some ⟨2, some 0⟩]
    requestHandles := [some 0] }

theorem handlesRun_oneChannel : HandlesRun .empty oneChannel :=
  .tail .newChannel .refl trivial ⟨0, rfl⟩

theorem handlesRun_oneHandle : HandlesRun .empty oneHandle := by
  refine .tail (.getCurrentRequest 0) (t := oneSession) ?_ ⟨_, rfl, fun cell hcell => ?_⟩ ⟨0, rfl⟩
  · exact .tail (.newSession 0) handlesRun_oneChannel rfl ⟨0, rfl⟩
  · obtain rfl := Option.some.inj hcell
    decide

/-- After `request::start_get`. -/
def oneStartGet : World :=
  { oneChannel with
    requests := [some ⟨1, some 0⟩]
    responses := [some ⟨2, ⟨some 0, true⟩⟩]
    responseHandles := [some 0]
    sessions := [⟨true, some 0, .requesting, 0, 0⟩]
    channels := [⟨true, false, 1, [0]⟩] }

/-- The handle is destroyed. The response and the session are there, for they hold each other. -/
theorem owned_oneStartGet : ∃ w, oneStartGet.responseHandles = [some 0] ∧
    HandlesRun oneStartGet w ∧ w.responseHandles = [none] ∧
    w.responses.value? 0 = some ⟨some 0, true⟩ ∧
      ∃ session, w.session? 0 = some session ∧ session.currentResponse = 0 := by
  have hrun : HandlesRun .empty oneStartGet :=
    .tail (.requestStartGet 0 true) handlesRun_oneChannel rfl ⟨0, rfl⟩
  have hdestroy : HandlesRun oneStartGet { oneStartGet with
      responses := [some ⟨1, ⟨some 0, true⟩⟩]
      responseHandles := [none] } := .tail (.destroyResponse 0) .refl trivial ⟨1, rfl⟩
  exact ⟨_, rfl, hdestroy, rfl,
    owned_never_deleted hrun (x := 0) (v := ⟨some 0, true⟩) (s := 0) rfl rfl rfl hdestroy⟩

/-- With a copy of the request. -/
def oneCopy : World :=
  { oneHandle with
    requests := [some ⟨2, some 0⟩, some ⟨2, some 0⟩]
    requestHandles := [some 0, some 1] }

/-- Both handles are destroyed. The copy is there, without a holder. -/
theorem leaked_oneHandle : ∃ w, HandlesRun oneCopy w ∧ w.requestHandles = [none, none] ∧
    ∃ cell, w.requests.cell? 1 = some cell ∧
      requestHolders w.requestHandles w.sessions 1 < cell.count.toNat := by
  have hdestroy : HandlesRun oneCopy { oneHandle with
      requests := [some ⟨1, some 0⟩, some ⟨1, some 0⟩]
      requestHandles := [none, none] } :=
    .tail (.destroyRequest 1) (.tail (.destroyRequest 0) .refl trivial ⟨0, rfl⟩) trivial ⟨0, rfl⟩
  exact ⟨_, hdestroy, rfl,
    leaked_of_copy.2 oneHandle 0 oneCopy _ handlesRun_oneHandle rfl ⟨0, rfl⟩ hdestroy⟩

end ShortRuns

end Intent.Old.Curl
