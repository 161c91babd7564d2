import Intent.Old.CurlSession

/-!
# HTTP methods by name

`core/net/http_method.cpp`: a table of methods, and `get_http_method_by_name`, which does not search
it but decides by the letters of the name. The name is copied to a buffer of 20 bytes first, folded
to lower case, and freed from a prefix.

`getHttpMethodByName_searches` says that the outcome is that of a search in the table. What the
buffer cuts off makes no difference: a name that is longer than 19 characters is too long for a
method also without its prefix.
-/

namespace Intent.Old.Http

open Curl (HttpMethodId cstring)

/-! ### The table -/

/-- `http_method`. -/
structure HttpMethod where
  id : HttpMethodId
  idStr : CString
  verb : CString
  firstRfc : UInt16
  lastRfc : UInt16

/-- A line of `http_method.tuples`. -/
def tuple (id : HttpMethodId) (idStr verb : String) (firstRfc lastRfc : UInt16) : HttpMethod :=
  ⟨id, cstring idStr, cstring verb, firstRfc, lastRfc⟩

/-- `known_methods`. -/
def knownMethods : List HttpMethod :=
  [tuple .httpGet "http_get" "GET" 1945 0,
    tuple .httpPut "http_put" "PUT" 1945 0,
    tuple .httpPost "http_post" "POST" 1945 0,
    tuple .httpOptions "http_options" "OPTIONS" 1945 0,
    tuple .httpHead "http_head" "HEAD" 1945 0,
    tuple .httpDelete "http_delete" "DELETE" 1945 0,
    tuple .httpTrace "http_trace" "TRACE" 2616 0,
    tuple .httpConnect "http_connect" "CONNECT" 2616 0,
    tuple .httpLink "http_link" "LINK" 1945 0,
    tuple .httpUnlink "http_unlink" "UNLINK" 1945 0,
    tuple .httpPatch "http_patch" "PATCH" 5789 0,
    tuple .webdavPropfind "webdav_propfind" "PROPFIND" 2518 0,
    tuple .webdavProppatch "webdav_proppatch" "PROPPATCH" 2518 0,
    tuple .webdavMkcol "webdav_mkcol" "MKCOL" 2518 0,
    tuple .webdavCopy "webdav_copy" "COPY" 2518 0,
    tuple .webdavMove "webdav_move" "MOVE" 2518 0,
    tuple .webdavLock "webdav_lock" "LOCK" 2518 0,
    tuple .webdavUnlock "webdav_unlock" "UNLOCK" 2518 0]

/-- `get_http_method_by_index`. -/
def getHttpMethodByIndex (i : ℕ) : Option HttpMethod := knownMethods[i]?

/-- `get_http_method_by_id`: the ids are numbered in the order of the table. -/
def getHttpMethodById (id : HttpMethodId) : Option HttpMethod := getHttpMethodByIndex id.ctorIdx

/-! ### The lookup -/

/-- The bytes that `strncpy(dest, src, n)` writes: all of them, and NULs behind a short string. -/
def strncpy (src : CString) (n : ℕ) : List Int8 :=
  src.chars.take n ++ List.replicate (n - src.chars.length) 0

/-- The string in a buffer. -/
def stringIn (buffer : List Int8) : List Int8 := buffer.takeWhile (· ≠ 0)

/-- `ascii_to_lower_case`, on a buffer: up to its first NUL. -/
def asciiToLowerCase : List Int8 → List Int8
  | [] => []
  | c :: cs => if c = 0 then c :: cs else toLower c :: asciiToLowerCase cs

/-- `normalized`, before a prefix is skipped. -/
def normalized (name : CString) : List Int8 :=
  stringIn (asciiToLowerCase (strncpy name 19 ++ [0]))

/-- The string behind `http_` or `webdav_`. -/
def skipPrefix (name : List Int8) : List Int8 :=
  if (cstring "http_").chars <+: name then name.drop 5
  else if (cstring "webdav_").chars <+: name then name.drop 7
  else name

/-- `strcmp(name + 1, verb + 1) == 0`, for strings that are not empty. -/
def matchesRest (name : List Int8) (verb : String) : Bool :=
  name.tail = (cstring verb).chars.tail

/-- The tests of `get_http_method_by_name`, on a string that is in lower case. -/
def findMethod (name : List Int8) : Option HttpMethod :=
  let c := name.headD 0
  if c = schar 'g' then
    if matchesRest name "get" then getHttpMethodById .httpGet else none
  else if c = schar 'p' then
    if matchesRest name "post" then getHttpMethodById .httpPost
    else if matchesRest name "put" then getHttpMethodById .httpPut
    else if matchesRest name "patch" then getHttpMethodById .httpPatch
    else if matchesRest name "propfind" then getHttpMethodById .webdavPropfind
    else if matchesRest name "proppatch" then getHttpMethodById .webdavProppatch
    else none
  else if c = schar 'o' then
    if matchesRest name "options" then getHttpMethodById .httpOptions else none
  else if c = schar 'h' then
    if matchesRest name "head" then getHttpMethodById .httpHead else none
  else if c = schar 'd' then
    if matchesRest name "delete" then getHttpMethodById .httpDelete else none
  else if c = schar 't' then
    if matchesRest name "trace" then getHttpMethodById .httpTrace else none
  else if c = schar 'c' then
    if matchesRest name "connect" then getHttpMethodById .httpConnect
    else if matchesRest name "copy" then getHttpMethodById .webdavCopy
    else none
  else if c = schar 'l' then
    if matchesRest name "link" then getHttpMethodById .httpLink
    else if matchesRest name "lock" then getHttpMethodById .webdavLock
    else none
  else if c = schar 'u' then
    if matchesRest name "unlink" then getHttpMethodById .httpUnlink
    else if matchesRest name "unlock" then getHttpMethodById .webdavUnlock
    else none
  else if c = schar 'm' then
    if matchesRest name "move" then getHttpMethodById .webdavMove
    else if matchesRest name "mkcol" then getHttpMethodById .webdavMkcol
    else none
  else none

/-- `get_http_method_by_name`, of a string or of a null pointer. -/
def getHttpMethodByName (name : Option CString) : Option HttpMethod :=
  match name with
  | none => none
  | some name =>
    if name.chars = [] then none else findMethod (skipPrefix (normalized name))

/-! ### The tests of the letters -/

section Letters

variable {name : List Int8} {m : HttpMethod}

/-- The verb of a method in lower case. -/
def HttpMethod.lowerVerb (m : HttpMethod) : List Int8 := m.verb.chars.map toLower

theorem mem_knownMethods_iff : m ∈ knownMethods ↔ ∃ id, getHttpMethodById id = some m := by
  constructor
  · intro h
    have hid : ∀ m ∈ knownMethods, getHttpMethodById m.id = some m := by
      simp only [knownMethods, List.forall_mem_cons]
      refine ⟨rfl, rfl, rfl, rfl, rfl, rfl, rfl, rfl, rfl, rfl, rfl, rfl, rfl, rfl, rfl, rfl, rfl,
        rfl, List.forall_mem_nil _⟩
    exact ⟨m.id, hid m h⟩
  · rintro ⟨id, hid⟩
    exact List.mem_of_getElem? hid

/-- What a test that holds says of the name. -/
theorem eq_of_matchesRest {c : Int8} {verb : String} (hc : name.headD 0 = c)
    (hverb : c ≠ 0 ∧ (cstring verb).chars.head? = some c) (h : matchesRest name verb = true) :
    name = (cstring verb).chars := by
  rw [matchesRest, decide_eq_true_eq] at h
  cases name with
  | nil => exact absurd hc.symm hverb.1
  | cons a name =>
    obtain rfl : a = c := hc
    rw [List.tail_cons] at h
    rw [h]
    exact List.cons_head?_tail hverb.2

/-- A test that holds leads to the method with the verb. -/
theorem sound_of_tests {c : Int8} {verb : String} {id : HttpMethodId} {rest : Option HttpMethod}
    (hc : name.headD 0 = c) (hverb : c ≠ 0 ∧ (cstring verb).chars.head? = some c)
    (hid : (getHttpMethodById id).map (·.lowerVerb) = some (cstring verb).chars)
    (hrest : rest = some m → m ∈ knownMethods ∧ m.lowerVerb = name)
    (h : (if matchesRest name verb then getHttpMethodById id else rest) = some m) :
    m ∈ knownMethods ∧ m.lowerVerb = name := by
  by_cases htest : matchesRest name verb = true
  · rw [if_pos htest] at h
    rw [h, Option.map_some, Option.some.injEq] at hid
    exact ⟨mem_knownMethods_iff.mpr ⟨id, h⟩, hid.trans (eq_of_matchesRest hc hverb htest).symm⟩
  · rw [if_neg htest] at h
    exact hrest h

/-- The last test for a letter. -/
theorem sound_of_test {c : Int8} {verb : String} {id : HttpMethodId} (hc : name.headD 0 = c)
    (hverb : c ≠ 0 ∧ (cstring verb).chars.head? = some c)
    (hid : (getHttpMethodById id).map (·.lowerVerb) = some (cstring verb).chars)
    (h : (if matchesRest name verb then getHttpMethodById id else none) = some m) :
    m ∈ knownMethods ∧ m.lowerVerb = name :=
  sound_of_tests hc hverb hid (fun h => by cases h) h

/-- The tests find nothing but the method with the verb. -/
theorem findMethod_sound (h : findMethod name = some m) :
    m ∈ knownMethods ∧ m.lowerVerb = name := by
  unfold findMethod at h
  -- one case for each letter, and in it one step for each verb with that letter
  by_cases hc : name.headD 0 = schar 'g'
  · rw [if_pos hc] at h
    exact sound_of_test hc (by decide) rfl h
  rw [if_neg hc] at h
  by_cases hc : name.headD 0 = schar 'p'
  · rw [if_pos hc] at h
    refine sound_of_tests hc (by decide) rfl (fun h => ?_) h
    refine sound_of_tests hc (by decide) rfl (fun h => ?_) h
    refine sound_of_tests hc (by decide) rfl (fun h => ?_) h
    refine sound_of_tests hc (by decide) rfl (fun h => ?_) h
    exact sound_of_test hc (by decide) rfl h
  rw [if_neg hc] at h
  by_cases hc : name.headD 0 = schar 'o'
  · rw [if_pos hc] at h
    exact sound_of_test hc (by decide) rfl h
  rw [if_neg hc] at h
  by_cases hc : name.headD 0 = schar 'h'
  · rw [if_pos hc] at h
    exact sound_of_test hc (by decide) rfl h
  rw [if_neg hc] at h
  by_cases hc : name.headD 0 = schar 'd'
  · rw [if_pos hc] at h
    exact sound_of_test hc (by decide) rfl h
  rw [if_neg hc] at h
  by_cases hc : name.headD 0 = schar 't'
  · rw [if_pos hc] at h
    exact sound_of_test hc (by decide) rfl h
  rw [if_neg hc] at h
  by_cases hc : name.headD 0 = schar 'c'
  · rw [if_pos hc] at h
    refine sound_of_tests hc (by decide) rfl (fun h => ?_) h
    exact sound_of_test hc (by decide) rfl h
  rw [if_neg hc] at h
  by_cases hc : name.headD 0 = schar 'l'
  · rw [if_pos hc] at h
    refine sound_of_tests hc (by decide) rfl (fun h => ?_) h
    exact sound_of_test hc (by decide) rfl h
  rw [if_neg hc] at h
  by_cases hc : name.headD 0 = schar 'u'
  · rw [if_pos hc] at h
    refine sound_of_tests hc (by decide) rfl (fun h => ?_) h
    exact sound_of_test hc (by decide) rfl h
  rw [if_neg hc] at h
  by_cases hc : name.headD 0 = schar 'm'
  · rw [if_pos hc] at h
    refine sound_of_tests hc (by decide) rfl (fun h => ?_) h
    exact sound_of_test hc (by decide) rfl h
  rw [if_neg hc] at h
  cases h

/-- The tests find every method. -/
theorem findMethod_lowerVerb (id : HttpMethodId) :
    (getHttpMethodById id).bind (findMethod ·.lowerVerb) = getHttpMethodById id := by
  cases id <;> rfl

/-- **The tests of the letters** are a search in the table. -/
theorem findMethod_eq_some_iff :
    findMethod name = some m ↔ m ∈ knownMethods ∧ m.lowerVerb = name := by
  refine ⟨findMethod_sound, ?_⟩
  rintro ⟨hm, rfl⟩
  obtain ⟨id, hid⟩ := mem_knownMethods_iff.mp hm
  have hfind := findMethod_lowerVerb id
  rwa [hid, Option.bind_some] at hfind

end Letters

/-! ### The buffer and the prefix -/

section Names

variable {name : CString} {m : HttpMethod}

/-- The characters of a name without one leading `http_` or `webdav_`, ignoring case. -/
def withoutPrefix (name : List Int8) : List Int8 :=
  if (cstring "http_").chars = (name.take 5).map toLower then name.drop 5
  else if (cstring "webdav_").chars = (name.take 7).map toLower then name.drop 7
  else name

theorem toLower_ne_zero {c : Int8} (h : c ≠ 0) : toLower c ≠ 0 := fun heq =>
  toLower_ne_toLower_zero h (heq.trans rfl)

/-- What the buffer holds. -/
theorem normalized_eq (name : CString) : normalized name = (name.chars.take 19).map toLower := by
  have hlower : ∀ (s t : List Int8), (∀ c ∈ s, c ≠ 0) →
      stringIn (asciiToLowerCase (s ++ 0 :: t)) = s.map toLower := by
    intro s t hs
    induction s with
    | nil => rfl
    | cons c s ih =>
      obtain ⟨hc, hs⟩ := List.forall_mem_cons.mp hs
      rw [List.cons_append, asciiToLowerCase, if_neg hc, stringIn, List.takeWhile_cons,
        if_pos (decide_eq_true (toLower_ne_zero hc)), List.map_cons]
      exact congrArg _ (ih hs)
  have htake : ∀ c ∈ name.chars.take 19, c ≠ 0 := fun c hc =>
    name.nonzero c (List.mem_of_mem_take hc)
  rw [normalized, strncpy, List.append_assoc]
  -- behind the characters there is a NUL, from `strncpy` or at the end of the buffer
  cases hn : 19 - name.chars.length with
  | zero => exact hlower _ [] htake
  | succ n => exact hlower _ (List.replicate n 0 ++ [0]) htake

/-- The prefix is skipped in lower case. -/
theorem skipPrefix_map (name : List Int8) :
    skipPrefix (name.map toLower) = (withoutPrefix name).map toLower := by
  have hstart : ∀ (w : List Int8), (w <+: name.map toLower) ↔
      w = (name.take w.length).map toLower := fun w => by
    rw [List.prefix_iff_eq_take, List.map_take]
  have hhttp : (cstring "http_").chars.length = 5 := rfl
  have hwebdav : (cstring "webdav_").chars.length = 7 := rfl
  rw [skipPrefix, withoutPrefix]
  simp only [hstart, hhttp, hwebdav]
  split_ifs
  · exact List.map_drop.symm
  · exact List.map_drop.symm
  · rfl

/-- A verb is a short string. -/
theorem length_lowerVerb_le (h : m ∈ knownMethods) : m.lowerVerb.length ≤ 9 := by
  obtain ⟨id, hid⟩ := mem_knownMethods_iff.mp h
  have hall : ∀ id, (getHttpMethodById id).all fun m => m.lowerVerb.length ≤ 9 := fun id => by
    cases id <;> rfl
  have hlength := hall id
  rw [hid] at hlength
  exact of_decide_eq_true hlength

/-- What does not fit into the buffer makes no difference. -/
theorem lowerVerb_eq_iff (h : m ∈ knownMethods) (name : List Int8) :
    m.lowerVerb = (withoutPrefix (name.take 19)).map toLower ↔
      m.lowerVerb = (withoutPrefix name).map toLower := by
  have hverb := length_lowerVerb_le h
  by_cases hshort : name.length ≤ 19
  · rw [List.take_of_length_le hshort]
  have hlong : ∀ s : List Int8, 19 ≤ s.length →
      m.lowerVerb ≠ (withoutPrefix s).map toLower := by
    intro s hs heq
    have hlen := congrArg List.length heq
    rw [List.length_map, withoutPrefix] at hlen
    split_ifs at hlen
    all_goals
      try rw [List.length_drop] at hlen
      omega
  exact iff_of_false (hlong _ (by rw [List.length_take]; omega)) (hlong _ (by omega))

/-- The verb of a method is the name without its prefix, ignoring case. -/
def HttpMethod.Named (m : HttpMethod) (name : CString) : Prop :=
  m.verb.chars.map toLower = (withoutPrefix name.chars).map toLower

theorem getHttpMethodByName_eq (name : CString) :
    getHttpMethodByName (some name) =
      findMethod ((withoutPrefix (name.chars.take 19)).map toLower) := by
  have hmap : skipPrefix (normalized name) = (withoutPrefix (name.chars.take 19)).map toLower := by
    rw [normalized_eq, skipPrefix_map]
  by_cases hempty : name.chars = []
  · rw [getHttpMethodByName, if_pos hempty, hempty]
    rfl
  · rw [getHttpMethodByName, if_neg hempty, hmap]

/-- **Methods by name.** For every string, the method is the entry of the table whose verb is the
string without its prefix, ignoring case, and it is null if there is no such entry. -/
theorem getHttpMethodByName_searches (name : CString) :
    (∀ m, getHttpMethodByName (some name) = some m ↔ m ∈ knownMethods ∧ m.Named name) ∧
      (getHttpMethodByName (some name) = none ↔ ∀ m ∈ knownMethods, ¬ m.Named name) := by
  have hsome : ∀ m, getHttpMethodByName (some name) = some m ↔
      m ∈ knownMethods ∧ m.Named name := fun m => by
    rw [getHttpMethodByName_eq, findMethod_eq_some_iff]
    exact and_congr_right fun hm => lowerVerb_eq_iff hm name.chars
  refine ⟨hsome, ?_⟩
  rw [Option.eq_none_iff_forall_ne_some]
  exact forall_congr' fun m => (not_congr (hsome m)).trans not_and

/-- The lookup of the sessions, which keeps the ids only. -/
theorem curl_getHttpMethodByName (name : Option CString) :
    Curl.getHttpMethodByName name = (getHttpMethodByName name).map (·.id) := by
  cases name with
  | none => rfl
  | some name =>
    rw [getHttpMethodByName_eq, ← skipPrefix_map]
    change (Curl.methodNames.find? fun entry => (cstring entry.1).chars =
      skipPrefix ((name.chars.take 19).map toLower)).map (·.2) = _
    generalize skipPrefix ((name.chars.take 19).map toLower) = s
    cases hfind : Curl.methodNames.find? fun entry => (cstring entry.1).chars = s with
    | some entry =>
      have hentry : ∀ entry ∈ Curl.methodNames,
          (findMethod (cstring entry.1).chars).map (·.id) = some entry.2 := by
        simp only [Curl.methodNames, List.forall_mem_cons]
        exact ⟨rfl, rfl, rfl, rfl, rfl, rfl, rfl, rfl, rfl, rfl, rfl, rfl, rfl, rfl, rfl, rfl, rfl,
          rfl, List.forall_mem_nil _⟩
      have heq := List.find?_some hfind
      rw [decide_eq_true_eq] at heq
      rw [← heq, hentry entry (List.mem_of_find?_eq_some hfind)]
      rfl
    | none =>
      have hverbs : ∀ id, (getHttpMethodById id).all fun m =>
          Curl.methodNames.any fun entry => (cstring entry.1).chars = m.lowerVerb := fun id => by
        cases id <;> rfl
      have hnone : findMethod s = none := by
        rw [Option.eq_none_iff_forall_ne_some]
        intro m hm
        obtain ⟨hknown, rfl⟩ := findMethod_sound hm
        obtain ⟨id, hid⟩ := mem_knownMethods_iff.mp hknown
        have hverb := hverbs id
        rw [hid, Option.all_some, List.any_eq_true] at hverb
        obtain ⟨entry, hentry, heq⟩ := hverb
        exact List.find?_eq_none.mp hfind entry hentry heq
      rw [hnone]
      rfl

end Names

end Intent.Old.Http
