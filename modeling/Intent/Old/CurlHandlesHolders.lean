import Intent.Old.CurlHandles

/-!
# Who holds requests and responses

`WorldOk` is what the calls keep: the counts are exact, where a request that was made by copying has
a holder for ever that nobody is (`leaked`), and what points to a session that was deleted is not
the request or the response that it had. Here are the calls on handles; they leave the sessions as
they are.
-/

namespace Intent.Old.Curl

open CountedStore

/-! ### Holders -/

/-- The handles and the sessions that hold a request. -/
def requestHolders (handles : List (Option ℕ)) (sessions : List SessionImpl) (x : ℕ) : ℕ :=
  handles.count (some x) +
    sessions.countP fun session => session.alive && session.currentRequest == x

/-- The handles and the sessions that hold a response. -/
def responseHolders (handles : List (Option ℕ)) (sessions : List SessionImpl) (x : ℕ) : ℕ :=
  handles.count (some x) +
    sessions.countP fun session => session.alive && session.currentResponse == x

/-- What holds between the calls. -/
structure WorldOk (w : World) (leaked : List ℕ) : Prop where
  requests : w.requests.Exact fun x =>
    requestHolders w.requestHandles w.sessions x + leaked.count x
  responses : w.responses.Exact (responseHolders w.responseHandles w.sessions)
  requestLink : ∀ x s, w.requests.value? x = some (some s) →
    ∃ session, w.sessions[s]? = some session ∧ (session.alive = false → session.currentRequest ≠ x)
  responseLink : ∀ x v s, w.responses.value? x = some v → v.session = some s →
    ∃ session, w.sessions[s]? = some session ∧ (session.alive = false → session.currentResponse ≠ x)
  currentRequest : ∀ s session, w.session? s = some session →
    w.requests.value? session.currentRequest = some (some s)
  currentResponse : ∀ s session, w.session? s = some session →
    ∃ v, w.responses.value? session.currentResponse = some v ∧ v.session = some s
  owned : ∀ x v, w.responses.value? x = some v → v.sessionOwnedByMe = true →
    ∃ s session, v.session = some s ∧ w.session? s = some session ∧ session.currentResponse = x
  bound : ∀ session ∈ w.sessions, session.currentRequest < w.requests.length ∧
    session.currentResponse < w.responses.length
  linked : ∀ session ∈ w.sessions, ∃ c, session.channel = some c
  closed : ∀ channel ∈ w.channels, channel.runnerHasId = false

/-- Responses that own their sessions are as they were. -/
def KeepsOwned (w w' : World) : Prop :=
  ∀ x v, w.responses.value? x = some v → v.sessionOwnedByMe = true → w'.responses.value? x = some v

variable {w w' : World} {leaked : List ℕ} {x y s c i n : ℕ} {session : SessionImpl}
  {v : ResponseImpl}

theorem session?_eq_some_iff :
    w.session? s = some session ↔ w.sessions[s]? = some session ∧ session.alive = true := by
  rw [World.session?, Option.filter_eq_some_iff]

/-! ### Counting -/

theorem count_point (handles : List (Option ℕ)) (x y : ℕ) :
    (handles ++ [some x]).count (some y) = handles.count (some y) + if x = y then 1 else 0 := by
  rw [List.count_append, List.count_singleton]
  simp only [beq_iff_eq, Option.some_inj]

theorem count_drop {handles : List (Option ℕ)} (hx : handles[i]?.join = some x) (y : ℕ) :
    (handles.set i none).count (some y) + (if x = y then 1 else 0) = handles.count (some y) := by
  have hget : handles[i]? = some (some x) := Option.join_eq_some_iff.mp hx
  have hset := countP_set_add hget none (· == some y)
  simp only [beq_iff_eq, Option.some_inj, reduceCtorEq, if_false, Nat.add_zero] at hset
  exact hset

theorem count_move (handles : List (Option ℕ)) (i y : ℕ) :
    (handles.set i none ++ [handles[i]?.join]).count (some y) = handles.count (some y) := by
  rw [List.count_append, List.count_singleton]
  cases hx : handles[i]?.join with
  | none =>
    rw [if_neg (by simp), Nat.add_zero]
    cases hget : handles[i]? with
    | none => rw [List.set_eq_of_length_le (List.getElem?_eq_none_iff.mp hget)]
    | some handle =>
      rw [hget, Option.join_some] at hx
      subst hx
      have hset := countP_set_add hget none (· == some y)
      exact Nat.add_right_cancel hset
  | some x =>
    have hdrop := count_drop hx y
    simp only [beq_iff_eq, Option.some_inj]
    exact hdrop

theorem requestHolders_pos (hx : w.request? i = some x) :
    0 < requestHolders w.requestHandles w.sessions x := by
  have hmem := List.mem_of_getElem? (Option.join_eq_some_iff.mp hx)
  exact Nat.add_pos_left (List.count_pos_iff.mpr hmem) _

theorem responseHolders_pos (hx : w.response? i = some x) :
    0 < responseHolders w.responseHandles w.sessions x := by
  have hmem := List.mem_of_getElem? (Option.join_eq_some_iff.mp hx)
  exact Nat.add_pos_left (List.count_pos_iff.mpr hmem) _

/-- A session holds its request. -/
theorem requestHolders_current_pos (hs : w.session? s = some session)
    (handles : List (Option ℕ)) : 0 < requestHolders handles w.sessions session.currentRequest := by
  obtain ⟨hget, halive⟩ := session?_eq_some_iff.mp hs
  refine Nat.add_pos_right _ (List.countP_pos_iff.mpr ⟨session, List.mem_of_getElem? hget, ?_⟩)
  rw [halive, Bool.true_and, beq_self_eq_true]

/-- A session holds its response. -/
theorem responseHolders_current_pos (hs : w.session? s = some session)
    (handles : List (Option ℕ)) :
    0 < responseHolders handles w.sessions session.currentResponse := by
  obtain ⟨hget, halive⟩ := session?_eq_some_iff.mp hs
  refine Nat.add_pos_right _ (List.countP_pos_iff.mpr ⟨session, List.mem_of_getElem? hget, ?_⟩)
  rw [halive, Bool.true_and, beq_self_eq_true]

/-- The holders of a request, after another session is in the place of one. -/
theorem requestHolders_set (hs : w.session? s = some session) (new : SessionImpl) (y : ℕ) :
    requestHolders w.requestHandles (w.sessions.set s new) y +
        (if session.currentRequest = y then 1 else 0) =
      requestHolders w.requestHandles w.sessions y +
        if new.alive = true ∧ new.currentRequest = y then 1 else 0 := by
  obtain ⟨hget, halive⟩ := session?_eq_some_iff.mp hs
  have hset := countP_set_add hget new fun other => other.alive && other.currentRequest == y
  simp only [Bool.and_eq_true, beq_iff_eq, halive, true_and] at hset
  rw [requestHolders, requestHolders]
  omega

/-- The holders of a response, after another session is in the place of one. -/
theorem responseHolders_set (hs : w.session? s = some session) (new : SessionImpl) (y : ℕ) :
    responseHolders w.responseHandles (w.sessions.set s new) y +
        (if session.currentResponse = y then 1 else 0) =
      responseHolders w.responseHandles w.sessions y +
        if new.alive = true ∧ new.currentResponse = y then 1 else 0 := by
  obtain ⟨hget, halive⟩ := session?_eq_some_iff.mp hs
  have hset := countP_set_add hget new fun other => other.alive && other.currentResponse == y
  simp only [Bool.and_eq_true, beq_iff_eq, halive, true_and] at hset
  rw [responseHolders, responseHolders]
  omega

/-! ### Calls that change requests or responses only -/

/-- Requests that lose or gain holders. -/
theorem WorldOk.withRequests (hw : WorldOk w leaked) {requests : CountedStore (Option ℕ)}
    {handles : List (Option ℕ)}
    (hexact : requests.Exact fun x =>
      requestHolders handles w.sessions x + leaked.count x)
    (hvalue : ∀ x, requests.value? x = w.requests.value? x ∨ requests.value? x = none)
    (hlength : requests.length = w.requests.length) :
    WorldOk { w with requests, requestHandles := handles } leaked := by
  have hold : ∀ {x a}, requests.value? x = some a → w.requests.value? x = some a := by
    intro x a hx
    rcases hvalue x with heq | hnone
    · rw [← heq, hx]
    · rw [hnone] at hx
      cases hx
  refine ⟨hexact, hw.responses, fun x s hx => hw.requestLink x s (hold hx), hw.responseLink,
    fun s session hs => ?_, hw.currentResponse, hw.owned, fun session hs => ?_, hw.linked,
    hw.closed⟩
  · -- the session holds its request
    obtain ⟨a, hsome⟩ := hexact.exists_value
      (Nat.add_pos_left (requestHolders_current_pos hs handles) _)
    rw [hsome, ← hold hsome]
    exact hw.currentRequest s session hs
  · have hb := hw.bound session hs
    exact ⟨hlength ▸ hb.1, hb.2⟩

/-- Responses that lose or gain holders. -/
theorem WorldOk.withResponses (hw : WorldOk w leaked) {responses : CountedStore ResponseImpl}
    {handles : List (Option ℕ)}
    (hexact : responses.Exact
      (responseHolders handles w.sessions))
    (hvalue : ∀ x, responses.value? x = w.responses.value? x ∨ responses.value? x = none)
    (hlength : responses.length = w.responses.length) :
    WorldOk { w with responses, responseHandles := handles } leaked := by
  have hold : ∀ {x a}, responses.value? x = some a → w.responses.value? x = some a := by
    intro x a hx
    rcases hvalue x with heq | hnone
    · rw [← heq, hx]
    · rw [hnone] at hx
      cases hx
  refine ⟨hw.requests, hexact, hw.requestLink, fun x v s hx => hw.responseLink x v s (hold hx),
    hw.currentRequest, fun s session hs => ?_, fun x v hx => hw.owned x v (hold hx),
    fun session hs => ?_, hw.linked, hw.closed⟩
  · obtain ⟨a, hsome⟩ := hexact.exists_value (responseHolders_current_pos hs handles)
    obtain ⟨v, hv, hsession⟩ := hw.currentResponse s session hs
    exact ⟨v, by rw [hsome, ← hold hsome, hv], hsession⟩
  · have hb := hw.bound session hs
    exact ⟨hb.1, hlength ▸ hb.2⟩

/-- The sessions hold the responses that own them. -/
theorem WorldOk.keepsOwned (hw : WorldOk w leaked) {responses : CountedStore ResponseImpl}
    {handles : List (Option ℕ)}
    (hexact : responses.Exact (responseHolders handles w.sessions))
    (hvalue : ∀ x, responses.value? x = w.responses.value? x ∨ responses.value? x = none) :
    KeepsOwned w { w with responses, responseHandles := handles } := by
  intro x v hx hown
  obtain ⟨s, session, -, hs, rfl⟩ := hw.owned x v hx hown
  obtain ⟨a, ha⟩ := hexact.exists_value (responseHolders_current_pos hs handles)
  rcases hvalue session.currentResponse with heq | hnone
  · exact heq.trans hx
  · rw [hnone] at ha
    cases ha

/-- There is room for another holder. -/
def RefRoom {α : Type} (store : CountedStore α) (x : ℕ) : Prop :=
  ∀ cell, store.cell? x = some cell → cell.count.toNat + 1 < 2 ^ 32

theorem WorldOk.pointRequest (hw : WorldOk w leaked) (hpos : (w.requests.cell? x).isSome = true)
    (hroom : RefRoom w.requests x) : ∃ w', pointRequest w x = some w' ∧ WorldOk w' leaked ∧
      KeepsOwned w w' := by
  obtain ⟨cell, hcell⟩ := Option.isSome_iff_exists.mp hpos
  have hlt := hroom cell hcell
  rw [(hw.requests x).2 cell hcell] at hlt
  obtain ⟨requests, hadd, hexact⟩ := hw.requests.addRef ((hw.requests x).1.mp hpos) hlt
    (g := fun y =>
      requestHolders (w.requestHandles ++ [some x]) w.sessions y + leaked.count y)
    (by simp only [requestHolders, count_point, if_true]; omega)
    (fun y hne => by simp only [requestHolders, count_point, if_neg hne.symm, Nat.add_zero])
  refine ⟨_, by rw [Curl.pointRequest, hadd, Option.map_some], ?_⟩
  exact ⟨hw.withRequests hexact (fun y => .inl (value?_addRef hadd y)) (length_addRef hadd),
    fun y v hy _ => hy⟩

theorem WorldOk.pointResponse (hw : WorldOk w leaked) (hpos : (w.responses.cell? x).isSome = true)
    (hroom : RefRoom w.responses x) : ∃ w', pointResponse w x = some w' ∧ WorldOk w' leaked ∧
      KeepsOwned w w' := by
  obtain ⟨cell, hcell⟩ := Option.isSome_iff_exists.mp hpos
  have hlt := hroom cell hcell
  rw [(hw.responses x).2 cell hcell] at hlt
  obtain ⟨responses, hadd, hexact⟩ := hw.responses.addRef ((hw.responses x).1.mp hpos) hlt
    (g := responseHolders (w.responseHandles ++ [some x]) w.sessions)
    (by simp only [responseHolders, count_point, if_true]; omega)
    (fun y hne => by simp only [responseHolders, count_point, if_neg hne.symm, Nat.add_zero])
  refine ⟨_, by rw [Curl.pointResponse, hadd, Option.map_some], ?_⟩
  exact ⟨hw.withResponses hexact (fun y => .inl (value?_addRef hadd y)) (length_addRef hadd),
    fun y v hy _ => (value?_addRef hadd y).trans hy⟩

theorem WorldOk.moveRequest (hw : WorldOk w leaked) (i : ℕ) :
    WorldOk (moveRequest w i) leaked := by
  refine hw.withRequests ?_ (fun x => .inl rfl) rfl
  simp only [requestHolders, World.request?, count_move]
  exact hw.requests

theorem WorldOk.moveResponse (hw : WorldOk w leaked) (i : ℕ) :
    WorldOk (moveResponse w i) leaked := by
  refine hw.withResponses ?_ (fun x => .inl rfl) rfl
  intro x
  rw [responseHolders, World.response?, count_move]
  exact hw.responses x

/-- A holder of a request goes. -/
theorem WorldOk.releaseRequest (hw : WorldOk w leaked) {g : ℕ → ℕ}
    (hx : g x + 1 = requestHolders w.requestHandles w.sessions x + leaked.count x)
    (hother : ∀ y, y ≠ x →
      g y = requestHolders w.requestHandles w.sessions y + leaked.count y)
    (handles : List (Option ℕ)) :
    ∃ requests, releaseRequest { w with requestHandles := handles } x =
        some { w with requests, requestHandles := handles } ∧
      requests.Exact g ∧
      (∀ y, requests.value? y = w.requests.value? y ∨ requests.value? y = none) ∧
      requests.length = w.requests.length := by
  obtain ⟨requests, last, hsub, -, hexact⟩ := hw.requests.fetchSub hx hother
  refine ⟨_, ?_, hexact, value?_release hsub, length_release hsub⟩
  dsimp only [Curl.releaseRequest]
  rw [hsub]
  rfl

theorem WorldOk.destroyRequest (hw : WorldOk w leaked) (i : ℕ) :
    ∃ w', destroyRequest w i = some w' ∧ WorldOk w' leaked ∧ KeepsOwned w w' := by
  rw [Curl.destroyRequest]
  cases hx : w.request? i with
  | none => exact ⟨w, rfl, hw, fun y v hy _ => hy⟩
  | some x =>
    obtain ⟨requests, heq, hexact, hvalue, hlength⟩ := hw.releaseRequest (x := x)
      (g := fun y =>
        requestHolders (w.requestHandles.set i none) w.sessions y + leaked.count y)
      (by
        have hdrop := count_drop hx x
        simp only [if_true] at hdrop
        simp only [requestHolders]
        omega)
      (fun y hne => by
        have hdrop := count_drop hx y
        simp only [if_neg hne.symm, Nat.add_zero] at hdrop
        simp only [requestHolders, hdrop])
      (w.requestHandles.set i none)
    exact ⟨_, heq, hw.withRequests hexact hvalue hlength, fun y v hy _ => hy⟩

theorem WorldOk.copyRequest (hw : WorldOk w leaked) (hi : (w.request? i).isSome = true) :
    ∃ w', copyRequest w i = some w' ∧ WorldOk w' (w.requests.length :: leaked) ∧
      KeepsOwned w w' := by
  obtain ⟨x, hx⟩ := Option.isSome_iff_exists.mp hi
  obtain ⟨session, hvalue⟩ := hw.requests.exists_value
    (Nat.add_pos_left (requestHolders_pos hx) (leaked.count x))
  have hzero := hw.requests.holders_length
  refine ⟨{ w with
      requests := w.requests.alloc (1 + 1) session
      requestHandles := w.requestHandles ++ [some w.requests.length] },
    by rw [Curl.copyRequest, hx, Option.bind_some, hvalue, Option.map_some], ?_,
    fun y v hy _ => hy⟩
  refine ⟨?_, hw.responses, fun y s hy => ?_, hw.responseLink, fun s session hs => ?_,
    hw.currentResponse, hw.owned, fun session hs => ?_, hw.linked, hw.closed⟩
  · -- one holder is the handle, the other one is nobody
    refine hw.requests.alloc ?_ ?_ fun y hne => ?_
    · simp only [requestHolders, count_point, if_true]
      omega
    · simp only [requestHolders, count_point, if_true, List.count_cons_self]
      have htwo : (1 + 1 : UInt32).toNat = 2 := rfl
      rw [requestHolders] at hzero
      omega
    · simp only [requestHolders, count_point, if_neg hne.symm, Nat.add_zero,
        List.count_cons_of_ne hne.symm]
  · rw [value?_alloc] at hy
    split_ifs at hy with heq
    · obtain rfl := Option.some.inj hy
      obtain ⟨session, hget, -⟩ := hw.requestLink x s hvalue
      have hb := (hw.bound session (List.mem_of_getElem? hget)).1
      exact ⟨session, hget, fun _ => by omega⟩
    · exact hw.requestLink y s hy
  · have hold := hw.currentRequest s session hs
    rw [value?_alloc, if_neg (Nat.ne_of_lt (lt_length_of_value? hold)), hold]
  · have hb := hw.bound session hs
    refine ⟨?_, hb.2⟩
    rw [CountedStore.alloc, List.length_append]
    exact Nat.lt_add_right _ hb.1

theorem WorldOk.sessionGet (hw : WorldOk w leaked) (hs : (w.session? s).isSome = true) :
    ∃ w', sessionGet w s = some w' ∧ WorldOk w' leaked ∧ KeepsOwned w w' := by
  obtain ⟨session, hs⟩ := Option.isSome_iff_exists.mp hs
  have hzero := hw.responses.holders_length
  refine ⟨{ w with
      responses := w.responses.alloc 1 ⟨some s, false⟩
      responseHandles := w.responseHandles ++ [some w.responses.length] },
    by rw [Curl.sessionGet, hs, Option.map_some], ?_, fun y v hy _ => by
      rw [value?_alloc, if_neg (Nat.ne_of_lt (lt_length_of_value? hy)), hy]⟩
  refine ⟨hw.requests, ?_, hw.requestLink, fun y v t hy hv => ?_, hw.currentRequest,
    fun t other ht => ?_, fun y v hy hown => ?_, fun other ho => ?_, hw.linked, hw.closed⟩
  · refine hw.responses.alloc ?_ ?_ fun y hne => ?_
    · simp only [responseHolders, count_point, if_true]
      omega
    · simp only [responseHolders, count_point, if_true]
      have hone : (1 : UInt32).toNat = 1 := rfl
      rw [responseHolders] at hzero
      omega
    · simp only [responseHolders, count_point, if_neg hne.symm, Nat.add_zero]
  · rw [value?_alloc] at hy
    split_ifs at hy with heq
    · obtain rfl := Option.some.inj hy
      obtain rfl := Option.some.inj hv
      obtain ⟨hget, halive⟩ := session?_eq_some_iff.mp hs
      exact ⟨session, hget, fun hdead => by rw [halive] at hdead; cases hdead⟩
    · exact hw.responseLink y v t hy hv
  · obtain ⟨v, hold, hv⟩ := hw.currentResponse t other ht
    refine ⟨v, ?_, hv⟩
    rw [value?_alloc, if_neg (Nat.ne_of_lt (lt_length_of_value? hold)), hold]
  · rw [value?_alloc] at hy
    split_ifs at hy with heq
    · obtain rfl := Option.some.inj hy
      cases hown
    · exact hw.owned y v hy hown
  · have hb := hw.bound other ho
    refine ⟨hb.1, ?_⟩
    rw [CountedStore.alloc, List.length_append]
    exact Nat.lt_add_right _ hb.2

/-! ### Releasing a response -/

/-- With fuel enough the computation returns this, and with less nothing. -/
structure Settles (f : ℕ → Option World) (w : World) : Prop where
  eq_of_some : ∀ n w', f n = some w' → w' = w
  exists_fuel : ∃ n, f n = some w

/-- The response does not delete a session. -/
theorem releaseResponse_settles {responses : CountedStore ResponseImpl} {last : Bool}
    (hv : w.responses.value? x = some v) (hsub : w.responses.fetchSub x = some (responses, last))
    (hown : last = true → v.sessionOwnedByMe = true → v.session = none) :
    Settles (releaseResponse · w x)
      { w with responses := if last then responses.free x else responses } := by
  have hsucc : ∀ n, releaseResponse (n + 1) w x =
      some { w with responses := if last then responses.free x else responses } := by
    intro n
    rw [releaseResponse, hv, Option.bind_some, hsub, Option.bind_some]
    cases last with
    | false => rfl
    | true =>
      dsimp only
      rw [if_pos rfl, if_pos rfl]
      cases howned : v.sessionOwnedByMe with
      | false => rfl
      | true =>
        rw [hown rfl howned]
        rfl
  refine ⟨fun n w' hn => ?_, 1, hsucc 0⟩
  cases n with
  | zero =>
    rw [releaseResponse] at hn
    cases hn
  | succ n => exact (Option.some.inj ((hsucc n).symm.trans hn)).symm

theorem WorldOk.destroyResponse (hw : WorldOk w leaked) (i : ℕ) :
    ∃ w', Settles (destroyResponse · w i) w' ∧ WorldOk w' leaked ∧ KeepsOwned w w' := by
  cases hx : w.response? i with
  | none =>
    refine ⟨w, ⟨fun n w' hn => ?_, 0, ?_⟩, hw, fun y v hy _ => hy⟩
    · rw [Curl.destroyResponse, hx] at hn
      exact (Option.some.inj hn).symm
    · rw [Curl.destroyResponse, hx]
  | some x =>
    obtain ⟨responses, last, hsub, hlast, hexact⟩ := hw.responses.fetchSub (x := x)
      (g := responseHolders (w.responseHandles.set i none) w.sessions)
      (by
        have hdrop := count_drop hx x
        simp only [if_true] at hdrop
        simp only [responseHolders]
        omega)
      (fun y hne => by
        have hdrop := count_drop hx y
        simp only [if_neg hne.symm, Nat.add_zero] at hdrop
        simp only [responseHolders, hdrop])
    obtain ⟨v, hv⟩ := hw.responses.exists_value (responseHolders_pos hx)
    have hsettles := releaseResponse_settles
      (w := { w with responseHandles := w.responseHandles.set i none }) hv hsub (by
        intro htrue howned
        -- a session that is owned holds its response
        obtain ⟨s, session, -, hs, hcurrent⟩ := hw.owned x v hv howned
        have hpos := responseHolders_current_pos hs (w.responseHandles.set i none)
        rw [hcurrent, hlast.mp htrue] at hpos
        exact absurd hpos (Nat.lt_irrefl 0))
    refine ⟨_, ?_, hw.withResponses hexact (value?_release hsub) (length_release hsub),
      hw.keepsOwned hexact (value?_release hsub)⟩
    refine ⟨fun n w' hn => ?_, ?_⟩
    · rw [Curl.destroyResponse, hx] at hn
      exact hsettles.eq_of_some n w' hn
    · obtain ⟨n, hn⟩ := hsettles.exists_fuel
      exact ⟨n, by rw [Curl.destroyResponse, hx]; exact hn⟩

end Intent.Old.Curl
