import Intent.Old.CurlHandlesHolders

/-!
# Sessions and the objects that they hold

The calls that make, change and delete sessions keep `WorldOk`. A session has a request and a
response from the beginning to the end; `reset` replaces the request.
-/

namespace Intent.Old.Curl

open CountedStore

variable {w w' : World} {leaked : List ℕ} {x y s c i n : ℕ} {session : SessionImpl}
  {v : ResponseImpl} {new : SessionImpl} {channels : List ChannelImpl}

theorem getElem?_set_session {sessions : List SessionImpl} (hget : sessions[s]? = some session)
    (new : SessionImpl) (t : ℕ) :
    (sessions.set s new)[t]? = if t = s then some new else sessions[t]? := by
  have hlt := (List.getElem?_eq_some_iff.mp hget).1
  split_ifs with ht
  · rw [ht, List.getElem?_set_self hlt]
  · rw [List.getElem?_set_ne (Ne.symm ht)]

/-- A session of the world with another session in one place. -/
theorem session?_set (hget : w.sessions[s]? = some session) {t : ℕ} {other : SessionImpl}
    (ht : World.session? { w with sessions := w.sessions.set s new } t = some other) :
    t = s ∧ other = new ∧ new.alive = true ∨ t ≠ s ∧ w.session? t = some other := by
  obtain ⟨hother, halive⟩ := session?_eq_some_iff.mp ht
  rw [getElem?_set_session hget] at hother
  split_ifs at hother with hts
  · obtain rfl := Option.some.inj hother
    exact .inl ⟨hts, rfl, halive⟩
  · exact .inr ⟨hts, session?_eq_some_iff.mpr ⟨hother, halive⟩⟩

/-- Another state, and other channels. -/
theorem WorldOk.withState (hw : WorldOk w leaked) (hs : w.session? s = some session)
    (state : SessionState) (hclosed : ∀ channel ∈ channels, channel.runnerHasId = false) :
    WorldOk { w with sessions := w.sessions.set s { session with state }, channels } leaked := by
  obtain ⟨hget, halive⟩ := session?_eq_some_iff.mp hs
  have hrequests : ∀ x,
      requestHolders w.requestHandles (w.sessions.set s { session with state }) x =
        requestHolders w.requestHandles w.sessions x := by
    intro x
    have hset := requestHolders_set hs { session with state } x
    simp only [and_iff_right halive] at hset
    exact Nat.add_right_cancel hset
  have hresponses : ∀ x,
      responseHolders w.responseHandles (w.sessions.set s { session with state }) x =
        responseHolders w.responseHandles w.sessions x := by
    intro x
    have hset := responseHolders_set hs { session with state } x
    simp only [and_iff_right halive] at hset
    exact Nat.add_right_cancel hset
  have hlink : ∀ {t : ℕ} {other : SessionImpl}, w.sessions[t]? = some other →
      ∃ other' : SessionImpl,
      (w.sessions.set s { session with state })[t]? = some other' ∧
      other'.alive = other.alive ∧ other'.currentRequest = other.currentRequest ∧
      other'.currentResponse = other.currentResponse := by
    intro t other ht
    rw [getElem?_set_session hget]
    split_ifs with hts
    · rw [hts, hget] at ht
      obtain rfl := Option.some.inj ht
      exact ⟨_, rfl, rfl, rfl, rfl⟩
    · exact ⟨other, ht, rfl, rfl, rfl⟩
  refine ⟨?_, ?_, fun x t hx => ?_, fun x v t hx hv => ?_, fun t other ht => ?_,
    fun t other ht => ?_, fun x v hx hv => ?_, fun other ho => ?_, fun other ho => ?_, hclosed⟩
  · simp only [hrequests]
    exact hw.requests
  · intro x
    rw [hresponses]
    exact hw.responses x
  · obtain ⟨other, ht, hne⟩ := hw.requestLink x t hx
    obtain ⟨other', ht', ha, hr, -⟩ := hlink ht
    exact ⟨other', ht', by rw [ha, hr]; exact hne⟩
  · obtain ⟨other, ht, hne⟩ := hw.responseLink x v t hx hv
    obtain ⟨other', ht', ha, -, hr⟩ := hlink ht
    exact ⟨other', ht', by rw [ha, hr]; exact hne⟩
  · rcases session?_set hget ht with ⟨rfl, rfl, -⟩ | ⟨-, hold⟩
    · exact hw.currentRequest t session hs
    · exact hw.currentRequest t other hold
  · rcases session?_set hget ht with ⟨rfl, rfl, -⟩ | ⟨-, hold⟩
    · exact hw.currentResponse t session hs
    · exact hw.currentResponse t other hold
  · obtain ⟨t, other, hvt, ht, hcurrent⟩ := hw.owned x v hx hv
    obtain ⟨hother, hotherAlive⟩ := session?_eq_some_iff.mp ht
    obtain ⟨other', ht', ha, -, hr⟩ := hlink hother
    exact ⟨t, other', hvt, session?_eq_some_iff.mpr ⟨ht', ha.trans hotherAlive⟩, hr.trans hcurrent⟩
  · rcases List.mem_or_eq_of_mem_set ho with hmem | rfl
    · exact hw.bound other hmem
    · exact hw.bound session (List.mem_of_getElem? hget)
  · rcases List.mem_or_eq_of_mem_set ho with hmem | rfl
    · exact hw.linked other hmem
    · exact hw.linked session (List.mem_of_getElem? hget)

/-- Other channels. -/
theorem WorldOk.withChannels (hw : WorldOk w leaked)
    (hclosed : ∀ channel ∈ channels, channel.runnerHasId = false) :
    WorldOk { w with channels } leaked :=
  ⟨hw.requests, hw.responses, hw.requestLink, hw.responseLink, hw.currentRequest,
    hw.currentResponse, hw.owned, hw.bound, hw.linked, hclosed⟩

/-- A channel that is as closed as the others. -/
theorem WorldOk.closed_set (hw : WorldOk w leaked) {channel : ChannelImpl}
    (hchannel : channel.runnerHasId = false) (c : ℕ) :
    ∀ other ∈ w.channels.set c channel, other.runnerHasId = false := by
  intro other hother
  rcases List.mem_or_eq_of_mem_set hother with hmem | rfl
  · exact hw.closed other hmem
  · exact hchannel

theorem WorldOk.channel?_closed (hw : WorldOk w leaked) {channel : ChannelImpl}
    (hc : w.channel? c = some channel) : channel.runnerHasId = false :=
  hw.closed channel (List.mem_of_getElem? (Option.filter_eq_some_iff.mp hc).1)

/-- A channel is as closed after `open` as before. -/
theorem open_runnerHasId (channel : ChannelImpl) :
    channel.open.runnerHasId = channel.runnerHasId := by
  rw [ChannelImpl.open]
  split_ifs with hopen
  · rfl
  · exact (Bool.eq_false_iff.mpr hopen).symm

/-- The current request of a session is replaced by a new one. -/
theorem WorldOk.resetPrelocked (hw : WorldOk w leaked) (hs : w.session? s = some session) :
    ∃ w' session', resetPrelocked w s = some w' ∧ WorldOk w' leaked ∧
      (RefRoom w.requests session.currentRequest → RefRoom w'.requests session'.currentRequest) ∧
      w'.session? s = some session' ∧ session'.channel = session.channel ∧
      session'.state = session.state ∧ session'.currentResponse = session.currentResponse ∧
      w'.channels = w.channels ∧ w'.responses = w.responses := by
  obtain ⟨hget, halive⟩ := session?_eq_some_iff.mp hs
  rw [Curl.resetPrelocked, hs, Option.bind_some]
  split_ifs with hstate
  · have hzero := hw.requests.holders_length
    have hcurrent := hw.currentRequest s session hs
    have hne : session.currentRequest ≠ w.requests.length :=
      Nat.ne_of_lt (lt_length_of_value? hcurrent)
    have hset := requestHolders_set hs { session with currentRequest := w.requests.length }
    simp only [and_iff_right halive] at hset
    obtain ⟨requests, heq, hexact, hvalue, hlength⟩ := hw.releaseRequest
      (x := session.currentRequest)
      (g := fun y => requestHolders w.requestHandles w.sessions y + leaked.count y -
        if session.currentRequest = y then 1 else 0)
      (by
        have hself := hset session.currentRequest
        simp only [if_true, if_neg hne.symm] at hself
        simp only [if_true]
        omega)
      (fun y hne => by simp only [if_neg hne.symm, Nat.sub_zero])
      w.requestHandles
    refine ⟨{ w with
        requests := requests.alloc 1 (some s)
        sessions := w.sessions.set s { session with currentRequest := requests.length } },
      { session with currentRequest := requests.length },
      by rw [heq]; rfl, ?_, fun _ cell hcell => ?_, ?_, rfl, rfl, rfl, rfl, rfl⟩
    · have hkept : ∀ y, y ≠ requests.length → (requests.alloc 1 (some s)).value? y =
          requests.value? y := fun y hy => by rw [value?_alloc, if_neg hy]
      have hnew : (requests.alloc 1 (some s)).value? requests.length = some (some s) := by
        rw [value?_alloc, if_pos rfl]
      have hold : ∀ {y a}, requests.value? y = some a → w.requests.value? y = some a := by
        intro y a hy
        rcases hvalue y with heq | hnone
        · rw [← heq, hy]
        · rw [hnone] at hy
          cases hy
      refine ⟨?_, ?_, fun y t hy => ?_, fun y v t hy hv => ?_, fun t other ht => ?_,
        fun t other ht => ?_, fun y v hy hv => ?_, fun other ho => ?_, fun other ho => ?_,
        hw.closed⟩
      · rw [← hlength] at hset hzero hne
        refine hexact.alloc ?_ ?_ fun y hy => ?_
        · have hself := hset requests.length
          simp only [if_true, if_neg hne] at hself ⊢
          omega
        · have hself := hset requests.length
          have hone : (1 : UInt32).toNat = 1 := rfl
          simp only [if_true, if_neg hne] at hself ⊢
          omega
        · have hself := hset y
          simp only [if_neg (Ne.symm hy)] at hself ⊢
          omega
      · intro y
        have hresponses := responseHolders_set hs
          { session with currentRequest := requests.length } y
        simp only [and_iff_right halive] at hresponses
        rw [Nat.add_right_cancel hresponses]
        exact hw.responses y
      · dsimp only
        rw [getElem?_set_session hget]
        split_ifs with hts
        · exact ⟨_, rfl, fun hdead => by rw [halive] at hdead; cases hdead⟩
        · dsimp only at hy
          rcases eq_or_ne y requests.length with rfl | hyne
          · rw [hnew] at hy
            exact absurd (Option.some.inj (Option.some.inj hy)).symm hts
          · rw [hkept y hyne] at hy
            exact hw.requestLink y t (hold hy)
      · dsimp only
        rw [getElem?_set_session hget]
        split_ifs with hts
        · exact ⟨_, rfl, fun hdead => by rw [halive] at hdead; cases hdead⟩
        · exact hw.responseLink y v t hy hv
      · rcases session?_set hget ht with ⟨rfl, rfl, -⟩ | ⟨hts, ht⟩
        · exact hnew
        · -- the requests of the other sessions are still there
          have hother := hw.currentRequest t other ht
          have hne' : session.currentRequest ≠ other.currentRequest := by
            intro heq
            rw [← heq, hcurrent] at hother
            exact hts (Option.some.inj (Option.some.inj hother)).symm
          obtain ⟨a, hsome⟩ := hexact.exists_value (x := other.currentRequest) (by
            rw [if_neg hne', Nat.sub_zero]
            exact Nat.add_pos_left (requestHolders_current_pos ht w.requestHandles) _)
          dsimp only
          rw [hkept _ (Nat.ne_of_lt (lt_length_of_value? hsome)), hsome, ← hold hsome, hother]
      · rcases session?_set hget ht with ⟨rfl, rfl, -⟩ | ⟨-, ht⟩
        · exact hw.currentResponse t session hs
        · exact hw.currentResponse t other ht
      · obtain ⟨t, other, hvt, ht, hresponse⟩ := hw.owned y v hy hv
        rcases eq_or_ne t s with rfl | hts
        · obtain rfl := Option.some.inj (hs.symm.trans ht)
          refine ⟨t, { session with currentRequest := requests.length }, hvt, ?_, hresponse⟩
          refine session?_eq_some_iff.mpr ⟨?_, halive⟩
          dsimp only
          rw [getElem?_set_session hget, if_pos rfl]
        · refine ⟨t, other, hvt, ?_, hresponse⟩
          obtain ⟨hother, hotherAlive⟩ := session?_eq_some_iff.mp ht
          refine session?_eq_some_iff.mpr ⟨?_, hotherAlive⟩
          dsimp only
          rw [getElem?_set_session hget, if_neg hts, hother]
      · have hlt : requests.length < (requests.alloc 1 (some s)).length := by
          rw [CountedStore.alloc, List.length_append, List.length_singleton]
          exact Nat.lt_succ_self _
        rcases List.mem_or_eq_of_mem_set ho with hmem | rfl
        · have hb := hw.bound other hmem
          exact ⟨lt_trans (hlength ▸ hb.1) hlt, hb.2⟩
        · exact ⟨hlt, (hw.bound session (List.mem_of_getElem? hget)).2⟩
      · rcases List.mem_or_eq_of_mem_set ho with hmem | rfl
        · exact hw.linked other hmem
        · exact hw.linked session (List.mem_of_getElem? hget)
    · dsimp only at hcell
      rw [cell?_alloc_length] at hcell
      obtain rfl := Option.some.inj hcell
      have hone : (1 : UInt32).toNat = 1 := rfl
      dsimp only
      omega
    · refine session?_eq_some_iff.mpr ⟨?_, halive⟩
      dsimp only
      rw [getElem?_set_session hget, if_pos rfl]
  · exact ⟨w, session, rfl, hw, id, hs, rfl, rfl, rfl, rfl, rfl⟩

theorem requestHolders_concat (handles : List (Option ℕ)) (sessions : List SessionImpl)
    (new : SessionImpl) (y : ℕ) :
    requestHolders handles (sessions ++ [new]) y = requestHolders handles sessions y +
      if new.alive = true ∧ new.currentRequest = y then 1 else 0 := by
  rw [requestHolders, requestHolders, List.countP_append, List.countP_singleton, Nat.add_assoc]
  simp only [Bool.and_eq_true, beq_iff_eq]

theorem responseHolders_concat (handles : List (Option ℕ)) (sessions : List SessionImpl)
    (new : SessionImpl) (y : ℕ) :
    responseHolders handles (sessions ++ [new]) y = responseHolders handles sessions y +
      if new.alive = true ∧ new.currentResponse = y then 1 else 0 := by
  rw [responseHolders, responseHolders, List.countP_append, List.countP_singleton, Nat.add_assoc]
  simp only [Bool.and_eq_true, beq_iff_eq]

/-- The sessions with a new one behind them. -/
theorem session?_concat {t : ℕ} {other : SessionImpl}
    (ht : World.session? { w with sessions := w.sessions ++ [new] } t = some other) :
    t = w.sessions.length ∧ other = new ∨ w.session? t = some other := by
  obtain ⟨hother, halive⟩ := session?_eq_some_iff.mp ht
  dsimp only at hother
  rcases Nat.lt_or_ge t w.sessions.length with hlt | hge
  · rw [List.getElem?_append_left hlt] at hother
    exact .inr (session?_eq_some_iff.mpr ⟨hother, halive⟩)
  · have hlt := (List.getElem?_eq_some_iff.mp hother).1
    rw [List.length_append, List.length_singleton] at hlt
    obtain rfl : t = w.sessions.length := by omega
    rw [List.getElem?_append_right (Nat.le_refl _), Nat.sub_self] at hother
    exact .inl ⟨rfl, (Option.some.inj hother).symm⟩

theorem getElem?_concat_of_some {t : ℕ} {other : SessionImpl} (ht : w.sessions[t]? = some other)
    (new : SessionImpl) : (w.sessions ++ [new])[t]? = some other := by
  rw [List.getElem?_append_left (List.getElem?_eq_some_iff.mp ht).1, ht]

/-- A new session, with a request and a response of its own. -/
theorem WorldOk.newSession (hw : WorldOk w leaked) (hc : (w.channel? c).isSome = true) :
    ∃ w', newSession w c = some w' ∧ WorldOk w' leaked ∧
      w'.session? w.sessions.length =
        some ⟨true, some c, .configuring, w.requests.length, w.responses.length⟩ ∧
      w'.responses = w.responses.alloc 1 ⟨some w.sessions.length, false⟩ ∧
      (w'.channel? c).isSome = true := by
  obtain ⟨channel, hchannel⟩ := Option.isSome_iff_exists.mp hc
  obtain ⟨hget, halive⟩ := Option.filter_eq_some_iff.mp hchannel
  have hzero := hw.requests.holders_length
  have hzero' := hw.responses.holders_length
  have hclosed := hw.channel?_closed hchannel
  have hattached : ({ channel with sessions := w.sessions.length :: channel.sessions } :
      ChannelImpl).runnerHasId = false := hclosed
  have hlast : (w.sessions ++ [⟨true, some c, .configuring, w.requests.length,
      w.responses.length⟩])[w.sessions.length]? =
      some ⟨true, some c, .configuring, w.requests.length, w.responses.length⟩ := by
    rw [List.getElem?_append_right (Nat.le_refl _), Nat.sub_self]
    rfl
  refine ⟨{ w with
      requests := w.requests.alloc 1 (some w.sessions.length)
      responses := w.responses.alloc 1 ⟨some w.sessions.length, false⟩
      sessions := w.sessions ++
        [⟨true, some c, .configuring, w.requests.length, w.responses.length⟩]
      channels := w.channels.set c
        { channel with sessions := w.sessions.length :: channel.sessions } }, ?_, ?_, ?_, rfl, ?_⟩
  · rw [Curl.newSession, attach]
    dsimp only [World.channel?] at hchannel ⊢
    rw [hchannel]
    rfl
  · refine ⟨?_, ?_, fun y t hy => ?_, fun y v t hy hv => ?_, fun t other ht => ?_,
      fun t other ht => ?_, fun y v hy hv => ?_, fun other ho => ?_, fun other ho => ?_,
      hw.closed_set hattached c⟩
    · refine hw.requests.alloc ?_ ?_ fun y hne => ?_
      · simp only [requestHolders_concat, true_and, if_true]
        omega
      · simp only [requestHolders_concat, true_and, if_true]
        have hone : (1 : UInt32).toNat = 1 := rfl
        omega
      · simp only [requestHolders_concat, true_and, if_neg hne.symm, Nat.add_zero]
    · refine hw.responses.alloc ?_ ?_ fun y hne => ?_
      · simp only [responseHolders_concat, true_and, if_true]
        omega
      · simp only [responseHolders_concat, true_and, if_true]
        have hone : (1 : UInt32).toNat = 1 := rfl
        omega
      · simp only [responseHolders_concat, true_and, if_neg hne.symm, Nat.add_zero]
    · rw [value?_alloc] at hy
      split_ifs at hy with heq
      · obtain rfl := Option.some.inj (Option.some.inj hy)
        exact ⟨_, hlast, fun hdead => by cases hdead⟩
      · obtain ⟨other, ht, hne⟩ := hw.requestLink y t hy
        exact ⟨other, getElem?_concat_of_some ht _, hne⟩
    · rw [value?_alloc] at hy
      split_ifs at hy with heq
      · obtain rfl := Option.some.inj hy
        obtain rfl := Option.some.inj hv
        exact ⟨_, hlast, fun hdead => by cases hdead⟩
      · obtain ⟨other, ht, hne⟩ := hw.responseLink y v t hy hv
        exact ⟨other, getElem?_concat_of_some ht _, hne⟩
    · rw [value?_alloc]
      rcases session?_concat ht with ⟨rfl, rfl⟩ | ht
      · exact if_pos rfl
      · have hold := hw.currentRequest t other ht
        rw [if_neg (Nat.ne_of_lt (lt_length_of_value? hold)), hold]
    · rw [value?_alloc]
      rcases session?_concat ht with ⟨rfl, rfl⟩ | ht
      · exact ⟨_, if_pos rfl, rfl⟩
      · obtain ⟨v, hold, hv⟩ := hw.currentResponse t other ht
        exact ⟨v, by rw [if_neg (Nat.ne_of_lt (lt_length_of_value? hold)), hold], hv⟩
    · rw [value?_alloc] at hy
      split_ifs at hy with heq
      · obtain rfl := Option.some.inj hy
        cases hv
      · obtain ⟨t, other, hvt, ht, hresponse⟩ := hw.owned y v hy hv
        obtain ⟨hother, hotherAlive⟩ := session?_eq_some_iff.mp ht
        exact ⟨t, other, hvt, session?_eq_some_iff.mpr
          ⟨getElem?_concat_of_some hother _, hotherAlive⟩, hresponse⟩
    · rw [CountedStore.alloc, CountedStore.alloc, List.length_append, List.length_append]
      rcases List.mem_append.mp ho with ho | ho
      · have hb := hw.bound other ho
        exact ⟨Nat.lt_add_right _ hb.1, Nat.lt_add_right _ hb.2⟩
      · obtain rfl := List.mem_singleton.mp ho
        exact ⟨Nat.lt_succ_self _, Nat.lt_succ_self _⟩
    · rcases List.mem_append.mp ho with ho | ho
      · exact hw.linked other ho
      · obtain rfl := List.mem_singleton.mp ho
        exact ⟨c, rfl⟩
  · exact session?_eq_some_iff.mpr ⟨hlast, rfl⟩
  · rw [World.channel?, List.getElem?_set_self (List.getElem?_eq_some_iff.mp hget).1]
    rw [Option.filter_some, if_pos halive]
    rfl

theorem getContents_ne_undefined (hasUrl : Bool) : getContents hasUrl ≠ .undefined := by
  cases hasUrl with
  | true => decide
  | false => decide

/-- Sending returns or throws, unless it comes to a URL without a method. -/
theorem WorldOk.sendPrelocked (hw : WorldOk w leaked) (hs : w.session? s = some session)
    (hc : ∀ c ∈ session.channel, (w.channel? c).isSome = true) {contents : RequestContents}
    (hcontents : session.state = .configuring → contents ≠ .undefined) :
    ∃ w' returned session', sendPrelocked w s contents = some (w', returned) ∧
      WorldOk w' leaked ∧ w'.session? s = some session' ∧
      session'.currentResponse = session.currentResponse ∧ w'.responses = w.responses := by
  rw [Curl.sendPrelocked, hs, Option.bind_some]
  cases hchan : session.channel with
  | none => exact ⟨w, false, session, rfl, hw, hs, rfl, rfl⟩
  | some c =>
    obtain ⟨channel, hchannel⟩ := Option.isSome_iff_exists.mp (hc c hchan)
    dsimp only
    rw [hchannel, Option.bind_some]
    split_ifs with hthrow hundefined
    · exact ⟨w, false, session, rfl, hw, hs, rfl, rfl⟩
    · exact absurd hundefined (hcontents (not_not.mp (not_or.mp hthrow).1))
    · obtain ⟨hget, halive⟩ := session?_eq_some_iff.mp hs
      have hopen := (open_runnerHasId channel).trans (hw.channel?_closed hchannel)
      refine ⟨{ w with
          sessions := w.sessions.set s { session with state := .requesting }
          channels := w.channels.set c channel.open }, true,
        { session with state := .requesting }, ?_, hw.withState hs _ (hw.closed_set hopen c), ?_,
        rfl, rfl⟩
      · rw [setState, World.session?]
        dsimp only [World.session?] at hs ⊢
        rw [hs]
        rfl
      · refine session?_eq_some_iff.mpr ⟨?_, halive⟩
        dsimp only
        rw [getElem?_set_session hget, if_pos rfl]

/-- The response of a session is told that it owns the session, and handed out. -/
theorem WorldOk.putOwned (hw : WorldOk w leaked) (hs : w.session? s = some session)
    (hv : w.responses.value? session.currentResponse = some v) :
    ∃ responses, w.responses.put session.currentResponse { v with sessionOwnedByMe := true } =
        some responses ∧ WorldOk { w with responses } leaked := by
  obtain ⟨responses, hput, hexact⟩ := hw.responses.put
    (responseHolders_current_pos hs w.responseHandles) { v with sessionOwnedByMe := true }
  refine ⟨responses, hput, hw.requests, hexact, hw.requestLink, fun y u t hy hu => ?_,
    hw.currentRequest, fun t other ht => ?_, fun y u hy hu => ?_, fun other ho => ?_,
    hw.linked, hw.closed⟩
  · dsimp only at hy
    rcases eq_or_ne y session.currentResponse with rfl | hne
    · rw [value?_put_self hput] at hy
      obtain rfl := Option.some.inj hy
      exact hw.responseLink _ v t hv hu
    · rw [value?_put_of_ne hput hne] at hy
      exact hw.responseLink y u t hy hu
  · obtain ⟨u, hold, hu⟩ := hw.currentResponse t other ht
    dsimp only
    rcases eq_or_ne other.currentResponse session.currentResponse with heq | hne
    · rw [heq] at hold ⊢
      obtain rfl := Option.some.inj (hv.symm.trans hold)
      exact ⟨_, value?_put_self hput, hu⟩
    · exact ⟨u, by rw [value?_put_of_ne hput hne, hold], hu⟩
  · dsimp only at hy
    rcases eq_or_ne y session.currentResponse with rfl | hne
    · rw [value?_put_self hput] at hy
      obtain rfl := Option.some.inj hy
      obtain ⟨u, hold, hu⟩ := hw.currentResponse s session hs
      obtain rfl := Option.some.inj (hv.symm.trans hold)
      exact ⟨s, session, hu, hs, rfl⟩
    · rw [value?_put_of_ne hput hne] at hy
      exact hw.owned y u hy hu
  · have hb := hw.bound other ho
    refine ⟨hb.1, ?_⟩
    dsimp only
    rw [length_put hput]
    exact hb.2

/-- `request::start_get` returns or throws. If it returns, there is one handle more, of a response
that owns its session. -/
theorem WorldOk.requestStartGet (hw : WorldOk w leaked) (hc : (w.channel? c).isSome = true)
    (hasUrl : Bool) : ∃ w', requestStartGet w c hasUrl = some w' ∧ WorldOk w' leaked ∧
      KeepsOwned w w' := by
  obtain ⟨w₁, hnew, hw₁, hs₁, hresponses₁, hc₁⟩ := hw.newSession hc
  obtain ⟨w₂, session₂, hreset, hw₂, -, hs₂, hchannel₂, -, hcurrent₂, hchannels₂, hresponses₂⟩ :=
    hw₁.resetPrelocked hs₁
  have hready : ∀ d ∈ session₂.channel, (w₂.channel? d).isSome = true := by
    intro d hd
    rw [hchannel₂] at hd
    obtain rfl := Option.mem_some.mp hd
    rw [World.channel?, hchannels₂]
    exact hc₁
  obtain ⟨w₃, returned, session₃, hsend, hw₃, hs₃, hcurrent₃, hresponses₃⟩ :=
    hw₂.sendPrelocked hs₂ hready fun _ => getContents_ne_undefined hasUrl
  have hresponses : w₃.responses = w.responses.alloc 1 ⟨some w.sessions.length, false⟩ := by
    rw [hresponses₃, hresponses₂, hresponses₁]
  have hold : ∀ {y v}, w.responses.value? y = some v → w₃.responses.value? y = some v := by
    intro y v hy
    rw [hresponses, value?_alloc, if_neg (Nat.ne_of_lt (lt_length_of_value? hy)), hy]
  have hcurrent : session₃.currentResponse = w.responses.length := by
    rw [hcurrent₃, hcurrent₂]
  have hvalue : w₃.responses.value? session₃.currentResponse =
      some ⟨some w.sessions.length, false⟩ := by
    rw [hresponses, hcurrent, value?_alloc, if_pos rfl]
  obtain ⟨responses, hput, hw₄⟩ := hw₃.putOwned hs₃ hvalue
  have hcell : responses.cell? session₃.currentResponse =
      some ⟨1, ⟨some w.sessions.length, true⟩⟩ := by
    obtain ⟨cell, hcell, rfl⟩ := Option.map_eq_some_iff.mp hput
    have hlt := lt_length_of_cell? hcell
    rw [cell?_set_self hlt]
    rw [hresponses, hcurrent, cell?_alloc_length] at hcell
    obtain rfl := Option.some.inj hcell
    rfl
  obtain ⟨w₅, hpoint, hw₅, hkeeps₅⟩ := hw₄.pointResponse (x := session₃.currentResponse)
    (by rw [hcell]; rfl) (fun cell hc => by
      rw [hcell] at hc
      obtain rfl := Option.some.inj hc
      have hone : (1 : UInt32).toNat = 1 := rfl
      dsimp only
      omega)
  rw [Curl.requestStartGet]
  dsimp only
  rw [hnew, Option.bind_some, hreset, Option.bind_some, hsend, Option.bind_some]
  cases returned with
  | false => exact ⟨w₃, rfl, hw₃, fun y v hy _ => hold hy⟩
  | true =>
    refine ⟨w₅, ?_, hw₅, fun y v hy hown => hkeeps₅ y v ?_ hown⟩
    · dsimp only
      rw [if_pos rfl, hs₃, Option.bind_some, hvalue, Option.bind_some, hput, Option.bind_some,
        hpoint]
    · dsimp only
      have hne : y ≠ session₃.currentResponse := by
        rw [hcurrent]
        exact Nat.ne_of_lt (lt_length_of_value? hy)
      rw [value?_put_of_ne hput hne]
      exact hold hy

/-- A channel dies, and the sessions stay as they are. -/
theorem WorldOk.deleteChannel (hw : WorldOk w leaked) (hc : (w.channel? c).isSome = true) :
    ∃ w', deleteChannel w c = some w' ∧ WorldOk w' leaked ∧ KeepsOwned w w' := by
  obtain ⟨channel, hchannel⟩ := Option.isSome_iff_exists.mp hc
  have hclosed := hw.channel?_closed hchannel
  have hdead : ({ channel with alive := false } : ChannelImpl).runnerHasId = false := hclosed
  refine ⟨{ w with channels := w.channels.set c { channel with alive := false } }, ?_,
    hw.withChannels (hw.closed_set hdead c), fun y v hy _ => hy⟩
  rw [Curl.deleteChannel, hchannel, Option.map_some]
  dsimp only
  rw [if_neg (by rw [ChannelImpl.isOpen, hclosed]; exact Bool.false_ne_true)]

/-- A session is deleted: its request and its response lose a holder, and do not point to it. -/
theorem WorldOk.withoutSession (hw : WorldOk w leaked) (hs : w.session? s = some session)
    (hv : w.responses.value? session.currentResponse = some v)
    (hvisible : v.sessionOwnedByMe = false)
    {requests : CountedStore (Option ℕ)} {responses : CountedStore ResponseImpl}
    (hrequests : requests.Exact fun y =>
      requestHolders w.requestHandles (w.sessions.set s { session with alive := false }) y +
        leaked.count y)
    (hresponses : responses.Exact
      (responseHolders w.responseHandles (w.sessions.set s { session with alive := false })))
    (hrequestValue : ∀ y a, requests.value? y = some a →
      y = session.currentRequest ∧ a = none ∨
        y ≠ session.currentRequest ∧ w.requests.value? y = some a)
    (hresponseValue : ∀ y u, responses.value? y = some u →
      y = session.currentResponse ∧ u = { v with session := none } ∨
        y ≠ session.currentResponse ∧ w.responses.value? y = some u)
    (hrequestLength : requests.length = w.requests.length)
    (hresponseLength : responses.length = w.responses.length)
    (hclosed : ∀ channel ∈ channels, channel.runnerHasId = false) :
    WorldOk { w with
      requests, responses, channels
      sessions := w.sessions.set s { session with alive := false } } leaked := by
  obtain ⟨hget, halive⟩ := session?_eq_some_iff.mp hs
  have hcurrent := hw.currentRequest s session hs
  -- what is alive in the new world was alive before, under another name
  have hbefore : ∀ {t other}, World.session? { w with
      sessions := w.sessions.set s { session with alive := false } } t = some other →
      t ≠ s ∧ w.session? t = some other := by
    intro t other ht
    rcases session?_set hget ht with ⟨-, -, hdead⟩ | hold
    · cases hdead
    · exact hold
  refine ⟨hrequests, hresponses, fun y t hy => ?_, fun y u t hy hu => ?_, fun t other ht => ?_,
    fun t other ht => ?_, fun y u hy hu => ?_, fun other ho => ?_, fun other ho => ?_, hclosed⟩
  · rcases hrequestValue y (some t) hy with ⟨-, hnone⟩ | ⟨hne, hold⟩
    · cases hnone
    · dsimp only
      rw [getElem?_set_session hget]
      split_ifs with hts
      · exact ⟨_, rfl, fun _ => hne.symm⟩
      · exact hw.requestLink y t hold
  · rcases hresponseValue y u hy with ⟨-, rfl⟩ | ⟨hne, hold⟩
    · cases hu
    · dsimp only
      rw [getElem?_set_session hget]
      split_ifs with hts
      · exact ⟨_, rfl, fun _ => hne.symm⟩
      · exact hw.responseLink y u t hold hu
  · obtain ⟨hts, hold⟩ := hbefore ht
    have hother := hw.currentRequest t other hold
    obtain ⟨a, hsome⟩ := hrequests.exists_value
      (Nat.add_pos_left (requestHolders_current_pos ht w.requestHandles) _)
    rcases hrequestValue _ a hsome with ⟨heq, -⟩ | ⟨-, hvalue⟩
    · rw [heq, hcurrent] at hother
      exact absurd (Option.some.inj (Option.some.inj hother)).symm hts
    · exact hsome.trans (hvalue.symm.trans hother)
  · obtain ⟨hts, hold⟩ := hbefore ht
    obtain ⟨u, hother, hu⟩ := hw.currentResponse t other hold
    obtain ⟨a, hsome⟩ := hresponses.exists_value
      (responseHolders_current_pos ht w.responseHandles)
    rcases hresponseValue _ a hsome with ⟨heq, -⟩ | ⟨-, hvalue⟩
    · rw [heq, hv] at hother
      obtain rfl := Option.some.inj hother
      obtain ⟨u, hown, hus⟩ := hw.currentResponse s session hs
      obtain rfl := Option.some.inj (hv.symm.trans hown)
      exact absurd (Option.some.inj (hus.symm.trans hu)).symm hts
    · exact ⟨u, hsome.trans (hvalue.symm.trans hother), hu⟩
  · rcases hresponseValue y u hy with ⟨-, rfl⟩ | ⟨hne, hold⟩
    · rw [hvisible] at hu
      cases hu
    · obtain ⟨t, other, hut, ht, hresponse⟩ := hw.owned y u hold hu
      have hts : t ≠ s := by
        rintro rfl
        obtain rfl := Option.some.inj (hs.symm.trans ht)
        exact hne hresponse.symm
      obtain ⟨hother, hotherAlive⟩ := session?_eq_some_iff.mp ht
      refine ⟨t, other, hut, session?_eq_some_iff.mpr ⟨?_, hotherAlive⟩, hresponse⟩
      dsimp only
      rw [getElem?_set_session hget, if_neg hts, hother]
  · dsimp only
    rw [hrequestLength, hresponseLength]
    rcases List.mem_or_eq_of_mem_set ho with hmem | rfl
    · exact hw.bound other hmem
    · exact hw.bound session (List.mem_of_getElem? hget)
  · rcases List.mem_or_eq_of_mem_set ho with hmem | rfl
    · exact hw.linked other hmem
    · exact hw.linked session (List.mem_of_getElem? hget)

/-- The destructor of a session returns, if its channel is still there. -/
theorem WorldOk.deleteSession (hw : WorldOk w leaked) (hs : w.session? s = some session)
    (hc : ∀ c ∈ session.channel, (w.channel? c).isSome = true)
    (hv : w.responses.value? session.currentResponse = some v)
    (hvisible : v.sessionOwnedByMe = false) :
    ∃ w', Settles (deleteSession · w s) w' ∧ WorldOk w' leaked ∧ KeepsOwned w w' := by
  obtain ⟨channels, hleave, hclosed⟩ : ∃ channels,
      leaveChannel w session s = some { w with channels } ∧
      ∀ channel ∈ channels, channel.runnerHasId = false := by
    rw [leaveChannel]
    cases hchan : session.channel with
    | none => exact ⟨w.channels, rfl, hw.closed⟩
    | some c =>
      obtain ⟨channel, hchannel⟩ := Option.isSome_iff_exists.mp (hc c hchan)
      have hclosed := hw.channel?_closed hchannel
      have herased : ({ channel with sessions := channel.sessions.erase s } :
          ChannelImpl).runnerHasId = false := hclosed
      refine ⟨_, ?_, hw.closed_set herased c⟩
      dsimp only
      rw [detach, hchannel, Option.map_some]
  -- the request
  obtain ⟨requests₁, hput, hexact₁⟩ := hw.requests.put
    (Nat.add_pos_left (requestHolders_current_pos hs w.requestHandles) _) none
  obtain ⟨requests₂, lastRequest, hsub, -, hexact₂⟩ := hexact₁.fetchSub
    (x := session.currentRequest)
    (g := fun y => requestHolders w.requestHandles
      (w.sessions.set s { session with alive := false }) y + leaked.count y)
    (by
      have hset := requestHolders_set hs { session with alive := false } session.currentRequest
      simp only [if_true, Bool.false_eq_true, false_and, if_false] at hset
      omega)
    (fun y hne => by
      have hset := requestHolders_set hs { session with alive := false } y
      simp only [if_neg hne.symm, Bool.false_eq_true, false_and, if_false] at hset
      omega)
  -- the response
  obtain ⟨responses₁, hput', hexact₁'⟩ := hw.responses.put
    (responseHolders_current_pos hs w.responseHandles) { v with session := none }
  obtain ⟨responses₂, lastResponse, hsub', -, hexact₂'⟩ := hexact₁'.fetchSub
    (x := session.currentResponse)
    (g := responseHolders w.responseHandles (w.sessions.set s { session with alive := false }))
    (by
      have hset := responseHolders_set hs { session with alive := false } session.currentResponse
      simp only [if_true, Bool.false_eq_true, false_and, if_false] at hset
      omega)
    (fun y hne => by
      have hset := responseHolders_set hs { session with alive := false } y
      simp only [if_neg hne.symm, Bool.false_eq_true, false_and, if_false] at hset
      omega)
  have hsettles := releaseResponse_settles (w := { w with
      channels
      requests := if lastRequest then requests₂.free session.currentRequest else requests₂
      responses := responses₁ }) (value?_put_self hput') hsub' (fun _ _ => rfl)
  have hsucc : ∀ n, Curl.deleteSession (n + 1) w s =
      (releaseResponse n { w with
        channels
        requests := if lastRequest then requests₂.free session.currentRequest else requests₂
        responses := responses₁ } session.currentResponse).map fun w =>
          { w with sessions := w.sessions.set s { session with alive := false } } := by
    intro n
    rw [Curl.deleteSession, hs, Option.bind_some, hleave]
    dsimp only [Option.bind_some]
    rw [breakRequest, hput]
    dsimp only [Option.map_some, Option.bind_some]
    rw [Curl.releaseRequest, hsub]
    dsimp only [Option.map_some, Option.bind_some]
    rw [breakResponse, hv]
    dsimp only [Option.bind_some]
    rw [hput']
    rfl
  refine ⟨_, ⟨fun n w' hn => ?_, ?_⟩, hw.withoutSession hs hv hvisible hexact₂ hexact₂'
    (fun y a hy => value?_put_release hput hsub hy)
    (fun y u hy => value?_put_release hput' hsub' hy)
    ((length_release hsub).trans (length_put hput))
    ((length_release hsub').trans (length_put hput')) hclosed, fun y u hy hown => ?_⟩
  · cases n with
    | zero =>
      rw [Curl.deleteSession] at hn
      cases hn
    | succ n =>
      rw [hsucc] at hn
      obtain ⟨w₁, hw₁, rfl⟩ := Option.map_eq_some_iff.mp hn
      obtain rfl := hsettles.eq_of_some n w₁ hw₁
      rfl
  · obtain ⟨n, hn⟩ := hsettles.exists_fuel
    refine ⟨n + 1, ?_⟩
    dsimp only at hn ⊢
    rw [hsucc, hn]
    rfl
  · have hne : y ≠ session.currentResponse := by
      rintro rfl
      obtain rfl := Option.some.inj (hv.symm.trans hy)
      rw [hvisible] at hown
      cases hown
    dsimp only
    rw [value?_release_of_ne hsub' hne, value?_put_of_ne hput' hne, hy]

end Intent.Old.Curl
