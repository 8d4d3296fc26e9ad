import VppJsonGateway.TransferBegin
import VppJsonGateway.NestingGuard
import VppJsonGateway.Lib.JsonLocal

/-!
# What `Resolve` makes of a transfer

`Resolve` puts the content of a transfer into the text of a request and parses that. So a content
may close the place it is put into, and go on as the request itself: `Splices` says when. On every
other content `Resolve` answers by whether it is the text of one object.
-/

namespace VppJson

open Lib Grammar

/-! ## Requests -/

/-- The checks of `ParseRequest` on the members of a request. -/
structure Request (m : List (Bytes × Json)) : Prop where
  id : (Json.find "id" m).any isId = true
  method : (Json.find "method" m).all (·.str?.isNone) = false
  params : (Json.find "params" m).any (!·.isObject) = false
  ref : (Json.find "params_ref" m).any (!isId ·) = false
  one : ((Json.find "params" m).isSome && (Json.find "params_ref" m).isSome) = false
  known : ∀ kv ∈ m, kv.1 ∈ [utf8 "id", utf8 "method", utf8 "params", utf8 "params_ref"]

/-- What `ParseRequest` accepts. -/
theorem parseRequest_ok_iff {env : Env} {text : Bytes} {limit : Nat} {request : Json} :
    parseRequest env text limit = .ok request ↔ text.length ≤ limit ∧
      (checkNesting text).ok = true ∧ Json.parse env.strtod text = some request ∧
      ∃ m, request = .obj m ∧ Request m := by
  unfold parseRequest
  constructor
  · intro h
    split_ifs at h with hlimit hnesting
    refine ⟨not_lt.1 hlimit, by simpa using hnesting, ?_⟩
    split at h
    · next m hm =>
      simp only at h
      split_ifs at h with hchecks hboth hunknown
      cases h
      simp only [Bool.or_eq_true, not_or, Bool.not_eq_true, Json.get?_obj] at hchecks
      obtain ⟨⟨⟨hid, hmethod⟩, hparams⟩, href⟩ := hchecks
      refine ⟨hm, m, rfl, by simpa using hid, hmethod, hparams, href, ?_, ?_⟩
      · simpa [Json.contains] using hboth
      · intro kv hkv
        by_contra hno
        exact hunknown (List.any_eq_true.2 ⟨kv, hkv, decide_eq_true hno⟩)
    · cases h
  · intro ⟨hlimit, hnesting, hparse, m, hrequest, hm⟩
    have hone : ¬ ((Json.find "params" m).isSome = true ∧
        (Json.find "params_ref" m).isSome = true) := by
      have hboth := hm.one
      intro ⟨hparams, href⟩
      rw [hparams, href] at hboth
      cases hboth
    have hknown : ¬ (m.any fun kv =>
        kv.1 ∉ [utf8 "id", utf8 "method", utf8 "params", utf8 "params_ref"]) = true := by
      intro hany
      obtain ⟨kv, hkv, hunknown⟩ := List.any_eq_true.1 hany
      exact of_decide_eq_true hunknown (hm.known kv hkv)
    rw [if_neg (not_lt.2 hlimit), if_neg (by simp [hnesting]), hparse, hrequest]
    simp only [Json.get?_obj, Json.contains, hm.id, hm.method, hm.params, hm.ref, Bool.not_true,
      Bool.or_self, Bool.false_eq_true, if_false, Bool.and_eq_true]
    rw [if_neg hone, if_neg hknown]

namespace Uploads

/-! ## The envelope -/

/-- The text `Resolve` parses. -/
def envelope (content : Bytes) : Bytes :=
  utf8 "\x7b\"id\":\"transfer\",\"method\":\"resolve\",\"params\":" ++ content ++ utf8 "\x7d"

/-- The members of the envelope around one value. -/
def members (v : Json) : List (Bytes × Json) :=
  [(utf8 "id", .str "transfer"), (utf8 "method", .str "resolve"), (utf8 "params", v)]

/-- The members of an object are those of a request. -/
theorem request_members {v : Json} (h : v.isObject = true) : VppJson.Request (members v) where
  id := rfl
  method := rfl
  params := by
    change (!v.isObject) = false
    rw [h]
    rfl
  ref := rfl
  one := rfl
  known := by
    intro kv hkv
    fin_cases hkv
    · exact .head _
    · exact .tail _ (.head _)
    · exact .tail _ (.tail _ (.head _))

/-- The parameters of a transfer, or why it holds none. -/
def resolved (env : Env) (content : Bytes) : Except Status Json :=
  match parseRequest env (envelope content) (Limits.paramsBytes + 128) with
  | .error _ => .error ⟨"invalid_params",
      "Transfer must contain a JSON parameter object within the adapter limit"⟩
  | .ok request => .ok ((request.get? "params").getD .null)

/-- The rest of a text the parser ignores: white space, or a NUL octet and anything after it. -/
def Ended (s : Bytes) : Prop := Json.skipWs s = [] ∨ (Json.skipWs s).head? = some 0

section

variable {env : Env} {content : Bytes}

/-- Behind its first members the envelope is read as the content, and the rest of an object. -/
theorem parseValue_envelope (strtod : Bytes → Option Double) (fuel : Nat) (s : Bytes) :
    Json.parseValue strtod (fuel + 4)
        (utf8 "\x7b\"id\":\"transfer\",\"method\":\"resolve\",\"params\":" ++ s) =
      (Json.parseValue strtod fuel s).bind fun p =>
        Json.parseRest strtod fuel (members p.1) p.2 := by
  have htext : utf8 "\x7b\"id\":\"transfer\",\"method\":\"resolve\",\"params\":" ++ s =
      123 :: (Json.quote (utf8 "id") ++ 58 :: (Json.quote (utf8 "transfer") ++ 44 ::
        (Json.quote (utf8 "method") ++ 58 :: (Json.quote (utf8 "resolve") ++ 44 ::
          (Json.quote (utf8 "params") ++ 58 :: s))))) := rfl
  have hstring : ∀ {v : Bytes} (fuel : Nat) (t : Bytes), Utf8.Valid v →
      Json.parseValue strtod (fuel + 1) (Json.quote v ++ 44 :: t) = some (.str v, 44 :: t) := by
    intro v fuel t hv
    rw [Json.quote, List.cons_append, List.append_assoc, List.singleton_append, Json.parseValue,
      Json.skipWs_cons (by simp [Json.NotWs])]
    simp [Json.parseString_escape hv]
  have hcomma : ∀ (fuel : Nat) (m : List (Bytes × Json)) (t : Bytes),
      Json.parseRest strtod fuel m (44 :: t) = Json.parseMembers strtod fuel m t := by
    intro fuel m t
    rw [Json.parseRest, Json.skipWs_cons (by simp [Json.NotWs])]
    simp
  have hopen : ∀ (fuel : Nat) (k t : Bytes),
      Json.parseValue strtod (fuel + 1) (123 :: (Json.quote k ++ t)) =
        Json.parseMembers strtod fuel [] (Json.quote k ++ t) := by
    intro fuel k t
    rw [Json.quote, List.cons_append, Json.parseValue, Json.skipWs_cons (by simp [Json.NotWs])]
    simp only [if_true]
    rw [Json.skipWs_cons (by simp [Json.NotWs])]
    simp only
    rw [if_neg (by decide)]
  have hvalid : ∀ k : Bytes, (∀ b ∈ k, b ≤ 0x7F) → Utf8.Valid k := fun _ => Utf8.valid_of_ascii
  have hid : Utf8.Valid (utf8 "id") := hvalid _ (by decide +kernel)
  have htransfer : Utf8.Valid (utf8 "transfer") := hvalid _ (by decide +kernel)
  have hmethod : Utf8.Valid (utf8 "method") := hvalid _ (by decide +kernel)
  have hresolve : Utf8.Valid (utf8 "resolve") := hvalid _ (by decide +kernel)
  have hparams : Utf8.Valid (utf8 "params") := hvalid _ (by decide +kernel)
  rw [htext, hopen, Json.parseMembers_member hid, hstring _ _ htransfer, Option.bind_some, hcomma,
    Json.parseMembers_member hmethod, hstring _ _ hresolve, Option.bind_some, hcomma,
    Json.parseMembers_member hparams]
  rfl

/-- A text is a value, and blanks behind it. -/
theorem parse_ended {strtod : Bytes → Option Double} {text : Bytes} {j : Json} :
    Json.parse strtod text = some j ↔
      ∃ r, Json.parseValue strtod (text.length + 1) (Json.skipBom text) = some (j, r) ∧ Ended r := by
  unfold Json.parse Ended
  constructor
  · intro h
    split at h
    · cases h
    next j' r hj =>
    split at h
    · next hskip =>
      cases h
      exact ⟨r, hj, .inl hskip⟩
    · next b r' hskip =>
      split_ifs at h with hb
      cases h
      exact ⟨r, hj, .inr (by rw [hskip, hb]; rfl)⟩
  · rintro ⟨r, hj, hended⟩
    rw [hj]
    cases hskip : Json.skipWs r with
    | nil => simp [hskip]
    | cons b r' =>
      rw [hskip] at hended
      rcases hended with hnil | hnul
      · cases hnil
      · cases hnul
        simp [hskip]

/-- **How the envelope is read**: one value from the content, and from what is left of the content
and the closing brace the rest of the request. -/
theorem parse_envelope {strtod : Bytes → Option Double} {j : Json} :
    Json.parse strtod (envelope content) = some j ↔
      ∃ v r rest, Json.parseValue strtod (content.length + 1) content = some (v, r) ∧
        Json.parseRest strtod (content.length + 1) (members v) (r ++ utf8 "\x7d") =
          some (j, rest) ∧ Ended rest := by
  obtain ⟨fuel, hlong, hfuel⟩ : ∃ fuel, content.length + 1 ≤ fuel ∧
      (envelope content).length + 1 = fuel + 4 := by
    refine ⟨content.length + 43, by omega, ?_⟩
    have hopening : (utf8 "\x7b\"id\":\"transfer\",\"method\":\"resolve\",\"params\":").length = 45 :=
      rfl
    have hbrace : (utf8 "\x7d").length = 1 := rfl
    simp only [envelope, List.length_append, hopening, hbrace]
    omega
  have hbom : Json.skipBom (envelope content) = envelope content := rfl
  have hsplit : envelope content =
      utf8 "\x7b\"id\":\"transfer\",\"method\":\"resolve\",\"params\":" ++
        (content ++ utf8 "\x7d") := List.append_assoc _ _ _
  rw [parse_ended, hfuel, hbom, hsplit, parseValue_envelope]
  constructor
  · rintro ⟨rest, hread, hended⟩
    obtain ⟨⟨v, r₀⟩, hv, hrest⟩ := Option.bind_eq_some_iff.1 hread
    obtain ⟨used, -, htext, hvalue⟩ := (Json.reads_of_parsers strtod fuel).1 _ _ _ hv
    simp only at hrest
    obtain ⟨hend, used', hne, hr₀, hlocal⟩ := Json.parseRest_local hrest
    -- The brace that closes the envelope is behind the value.
    obtain ⟨r, rfl, rfl⟩ : ∃ r, r₀ = r ++ utf8 "\x7d" ∧ content = used ++ r := by
      rcases List.eq_nil_or_concat r₀ with hnil | ⟨r, b, hcons⟩
      · rw [hnil] at hr₀
        exact absurd (List.append_eq_nil_iff.1 hr₀.symm).1 hne
      · rw [hcons, List.concat_eq_append, ← List.append_assoc] at htext
        obtain ⟨hcontent, hb⟩ := List.append_inj' htext rfl
        exact ⟨r, by rw [hcons, hb, List.concat_eq_append], hcontent⟩
    refine ⟨v, r, rest, hvalue _ r (by simp; omega) (Json.NumEnd.left hend), ?_, hended⟩
    rw [hr₀]
    refine hlocal _ rest ?_
    have hlen := congrArg List.length hr₀
    have hbrace : (utf8 "\x7d").length = 1 := rfl
    simp only [List.length_append, hbrace] at hlen ⊢
    omega
  · rintro ⟨v, r, rest, hv, hrest, hended⟩
    obtain ⟨used, -, htext, hvalue⟩ := (Json.reads_of_parsers strtod _).1 _ _ _ hv
    obtain ⟨hend, used', hne, hr, hlocal⟩ := Json.parseRest_local hrest
    have hlen := congrArg List.length hr
    have hbrace : (utf8 "\x7d").length = 1 := rfl
    have hcontent := congrArg List.length htext
    simp only [List.length_append, hbrace] at hlen hcontent
    refine ⟨rest, ?_, hended⟩
    rw [htext, List.append_assoc, hvalue fuel _ (by omega) hend, Option.bind_some, hr]
    exact hlocal fuel rest (by omega)

/-- The envelope is one container around its content. -/
theorem checkNesting_envelope {m : Marked} (hm : IsText m) :
    (checkNesting (envelope m.text)).ok = true ↔ ∀ x ∈ m, x.2 ≤ 31 := by
  have hopen : Nesting.run {} (utf8 "\x7b\"id\":\"transfer\",\"method\":\"resolve\",\"params\":") =
      some { depth := (1 : Nat) } := rfl
  have hclose : ∀ s : Nesting, (s.run (utf8 "\x7d")).isSome = true := by
    rintro ⟨depth, _ | _, _ | _⟩
    all_goals rfl
  have hscans := Nesting.scans_of_derives hm.inside (by omega : 1 ≤ 32)
  have hwithin := hscans.within m.deeper.length
  rw [List.take_length, Marked.text_deeper] at hwithin
  have hrun : (Nesting.run {} (envelope m.text)).isSome =
      (Nesting.run { depth := (1 : Nat) } m.text).isSome := by
    rw [envelope, List.append_assoc, Nesting.run_append, hopen, Option.bind_some,
      Nesting.run_append]
    cases Nesting.run { depth := (1 : Nat) } m.text with
    | none => rfl
    | some s => exact hclose s
  rw [checkNesting_ok, hrun, hwithin]
  constructor
  · intro hall x hx
    have hle := hall (x.1, x.2 + 1) (List.mem_map.2 ⟨x, hx, rfl⟩)
    exact Nat.le_of_succ_le_succ hle
  · intro hall x hx
    obtain ⟨y, hy, rfl⟩ := List.mem_map.1 hx
    have hle := hall y hy
    simp only
    omega

/-! ## What `Resolve` answers -/

/-- The content is the text of one JSON object with white space around it, at most 31 containers
deep; `v` is the object. -/
structure ObjectText (env : Env) (content : Bytes) (v : Json) : Prop where
  object : v.isObject = true
  whole : Json.whole env.strtod content = some v
  nesting : ∃ m, IsText m ∧ m.text = content ∧ ∀ x ∈ m, x.2 ≤ 31

/-- The content closes the place it is put into: behind its first value it goes on with a comma and
more members, or with the closing brace and a NUL octet, and what it makes of the envelope is a
request that `ParseRequest` lets pass. -/
def Splices (env : Env) (content : Bytes) : Prop :=
  ∃ v r m rest, Json.parseValue env.strtod (content.length + 1) content = some (v, r) ∧
    Json.skipWs r ≠ [] ∧
    Json.parseRest env.strtod (content.length + 1) (members v) (r ++ utf8 "\x7d") =
      some (.obj m, rest) ∧
    Ended rest ∧ VppJson.Request m ∧ (checkNesting (envelope content)).ok = true

/-- What closes the place goes on with a comma or a closing brace behind its first value. -/
theorem Splices.closes (h : Splices env content) : ∃ v r c s,
    Json.parseValue env.strtod (content.length + 1) content = some (v, r) ∧
      Json.skipWs r = c :: s ∧ (c = 44 ∨ c = 125) := by
  obtain ⟨v, r, m, rest, hv, hmore, hrest, -⟩ := h
  cases hr : Json.skipWs r with
  | nil => exact absurd hr hmore
  | cons c s =>
    refine ⟨v, r, c, s, hv, hr, ?_⟩
    rw [Json.parseRest, Json.skipWs_append hr] at hrest
    by_contra hne
    rw [not_or] at hne
    simp only [if_neg hne.1, if_neg hne.2] at hrest
    cases hrest

/-- What closes the place adds members to the envelope, which with these is the request. -/
theorem splices_iff_adds : Splices env content ↔
    ∃ v r rest, ∃ added : List (Bytes × Json),
      Json.parseValue env.strtod (content.length + 1) content = some (v, r) ∧ Json.skipWs r ≠ [] ∧
      Json.parseRest env.strtod (content.length + 1) (members v) (r ++ utf8 "\x7d") =
        some (.obj (added.foldl (fun m kv => Json.setKey kv.1 kv.2 m) (members v)), rest) ∧
      Ended rest ∧
      VppJson.Request (added.foldl (fun m kv => Json.setKey kv.1 kv.2 m) (members v)) ∧
      (checkNesting (envelope content)).ok = true := by
  constructor
  · rintro ⟨v, r, m, rest, hv, hmore, hrest, hended, hm, hnesting⟩
    have hadds : ∃ added : List (Bytes × Json),
        m = added.foldl (fun m kv => Json.setKey kv.1 kv.2 m) (members v) := by
      have hparsed := hrest
      rw [Json.parseRest] at hparsed
      split at hparsed
      · cases hparsed
      split_ifs at hparsed
      · obtain ⟨added, hadded⟩ := Json.parseMembers_adds hparsed
        cases hadded
        exact ⟨added, rfl⟩
      · cases hparsed
        exact ⟨[], rfl⟩
    obtain ⟨added, rfl⟩ := hadds
    exact ⟨v, r, rest, added, hv, hmore, hrest, hended, hm, hnesting⟩
  · rintro ⟨v, r, rest, added, hv, hmore, hrest, hended, hm, hnesting⟩
    exact ⟨v, r, _, rest, hv, hmore, hrest, hended, hm, hnesting⟩

/-- The content is resolved iff its envelope nests, parses, and passes the checks of a request. -/
theorem resolved_ok_iff (hsize : content.length ≤ Limits.paramsBytes) {w : Json} :
    resolved env content = .ok w ↔ (checkNesting (envelope content)).ok = true ∧
      ∃ m, Json.parse env.strtod (envelope content) = some (.obj m) ∧ VppJson.Request m ∧
        w = (Json.find "params" m).getD .null := by
  have hlength : (envelope content).length ≤ Limits.paramsBytes + 128 := by
    have hopening : (utf8 "\x7b\"id\":\"transfer\",\"method\":\"resolve\",\"params\":").length = 45 :=
      rfl
    have hbrace : (utf8 "\x7d").length = 1 := rfl
    simp only [envelope, List.length_append, hopening, hbrace]
    omega
  unfold resolved
  constructor
  · intro h
    cases hparse : parseRequest env (envelope content) (Limits.paramsBytes + 128) with
    | error status =>
      rw [hparse] at h
      cases h
    | ok request =>
      rw [hparse] at h
      cases h
      obtain ⟨-, hnesting, htext, m, rfl, hm⟩ := parseRequest_ok_iff.1 hparse
      exact ⟨hnesting, m, htext, hm, rfl⟩
  · rintro ⟨hnesting, m, htext, hm, rfl⟩
    rw [parseRequest_ok_iff.2 ⟨hlength, hnesting, htext, m, rfl, hm⟩]
    rfl

/-- A content that is one value is the parameter of the envelope. -/
theorem parse_envelope_of_whole {strtod : Bytes → Option Double} {v j : Json}
    (h : Json.whole strtod content = some v) :
    Json.parse strtod (envelope content) = some j ↔ j = .obj (members v) := by
  unfold Json.whole at h
  rw [parse_envelope]
  split at h
  · cases h
  next v' r hv =>
  split_ifs at h with hskip
  cases h
  have hclose : Json.parseRest strtod (content.length + 1) (members v) (r ++ utf8 "\x7d") =
      some (.obj (members v), []) := by
    rw [Json.parseRest, Json.skipWs_space ((Json.isSpace_iff_skipWs r).2 hskip)]
    rfl
  constructor
  · rintro ⟨v', r', rest, hv', hrest, -⟩
    rw [hv] at hv'
    cases hv'
    rw [hclose] at hrest
    cases hrest
    rfl
  · rintro rfl
    exact ⟨v, r, [], hv, hclose, .inl rfl⟩

/-- **`Resolve` answers by the content as a whole** if and only if the content does not close the
place it is put into. -/
theorem resolved_iff_objectText (hsize : content.length ≤ Limits.paramsBytes) :
    (∀ w, resolved env content = .ok w ↔ ObjectText env content w) ↔ ¬ Splices env content := by
  constructor
  · rintro hexact ⟨v, r, m, rest, hv, hmore, hrest, hended, hm, hnesting⟩
    have hparse := parse_envelope.2 ⟨v, r, rest, hv, hrest, hended⟩
    have hwhole := ((hexact _).1 ((resolved_ok_iff hsize).2 ⟨hnesting, m, hparse, hm, rfl⟩)).whole
    unfold Json.whole at hwhole
    rw [hv] at hwhole
    simp only at hwhole
    rw [if_neg hmore] at hwhole
    cases hwhole
  · intro hno w
    rw [resolved_ok_iff hsize]
    constructor
    · rintro ⟨hnesting, m, hparse, hm, rfl⟩
      obtain ⟨v, r, rest, hv, hrest, hended⟩ := parse_envelope.1 hparse
      by_cases hmore : Json.skipWs r = []
      · have hwhole : Json.whole env.strtod content = some v := by
          simp [Json.whole, hv, hmore]
        cases (parse_envelope_of_whole hwhole).1 hparse
        obtain ⟨marked, hmarked, htext⟩ := Json.text_of_whole hwhole
        have hobject : (!v.isObject) = false := hm.params
        refine ⟨?_, hwhole, marked, hmarked, htext, ?_⟩
        · change v.isObject = true
          cases hcases : v.isObject with
          | false =>
            rw [hcases] at hobject
            cases hobject
          | true => rfl
        · rw [← htext] at hnesting
          exact (checkNesting_envelope hmarked).1 hnesting
      · exact absurd ⟨v, r, m, rest, hv, hmore, hrest, hended, hm, hnesting⟩ hno
    · rintro ⟨hobject, hwhole, m, hm, rfl, hdepth⟩
      exact ⟨(checkNesting_envelope hm).2 hdepth, members w,
        (parse_envelope_of_whole hwhole).2 rfl, request_members hobject, rfl⟩

/-- A content whose first value is followed by neither a comma nor a closing brace is answered by as
a whole. -/
theorem resolved_of_plain (hsize : content.length ≤ Limits.paramsBytes)
    (hplain : ∀ v r c s, Json.parseValue env.strtod (content.length + 1) content = some (v, r) →
      Json.skipWs r = c :: s → c ≠ 44 ∧ c ≠ 125) (w : Json) :
    resolved env content = .ok w ↔ ObjectText env content w := by
  refine (resolved_iff_objectText hsize).2 (fun hsplices => ?_) w
  obtain ⟨v, r, c, s, hv, hr, hc⟩ := hsplices.closes
  obtain ⟨h44, h125⟩ := hplain v r c s hv hr
  exact hc.elim h44 h125

end

/-! ## `Resolve` in a run -/

section

variable {env : Env} {u t : Uploads} {session id content : Bytes} {m : Manifest}

/-- What `Resolve` answers about a committed transfer, unless it expires meanwhile. -/
theorem resolve_runs (hm : readManifest env u (path env session id) = some m)
    (hcommitted : m.committed = true) (hsize : m.total ≤ Limits.paramsBytes)
    (hdata : u.readData (path env session id) = some content) {r : Except Status Json}
    (hrun : (resolve env session id).Runs Waits u r t) (hlive : t.now < m.expires) :
    r = resolved env content := by
  have hfollows : (resolve env session id).Follows Waits (fun _ _ => True) (fun _ => True)
      (fun r t => t.now < m.expires → r = resolved env content) u := by
    refine Prog.Follows.seq (Q := fun r t => t.files = u.files ∧
      (r = .ok m ∨ (∃ status, r = .error status) ∧ m.expires ≤ t.now)) ?_ ?_
    · refine Prog.Follows.seq (Q := fun r t => r = some m ∧ t.files = u.files)
        (Prog.Follows.read (fun _ => trivial) fun t ht _ => ⟨?_, ht.files⟩) ?_
      · rw [← hm, readManifest, readManifest, ht.files]
      rintro r t ⟨rfl, hfiles⟩
      refine Prog.Follows.seq (Q := fun now t => now ≤ t.now ∧ t.files = u.files)
        (Prog.Follows.read (fun _ => trivial) fun t' ht _ => ⟨le_rfl, ht.files.trans hfiles⟩) ?_
      intro now t hread
      obtain ⟨hnow, hfiles⟩ := hread
      split_ifs with hexpired
      · exact ⟨hfiles, .inr ⟨⟨_, rfl⟩, hexpired.trans hnow⟩⟩
      · exact ⟨hfiles, .inl rfl⟩
    · rintro r t ⟨hfiles, rfl | ⟨⟨status, rfl⟩, hexpired⟩⟩
      · simp only [hcommitted, Bool.true_eq_false, if_false]
        rw [if_neg (not_lt.2 hsize)]
        refine Prog.Follows.seq (Q := fun text _ => text = content)
          (Prog.Follows.read (fun _ => trivial) fun t' ht _ => ?_) ?_
        · rw [readData, ht.files, hfiles, ← readData, hdata]
          rfl
        · rintro text t' rfl
          unfold resolved envelope
          generalize parseRequest env _ _ = parsed
          cases parsed with
          | error status => exact fun _ => rfl
          | ok request => exact fun _ => rfl
      · exact fun hlive => absurd hexpired (not_le.2 hlive)
  exact hfollows.runs hrun Waits.refl Waits.trans (fun _ _ _ hwaits h hlive =>
    h (hwaits.now.trans_lt hlive)) hlive

/-- `Resolve` answers whatever the file system does. -/
theorem resolve_total (hm : readManifest env u (path env session id) = some m)
    (hcommitted : m.committed = true) (hlive : u.now < m.expires)
    (hsize : m.total ≤ Limits.paramsBytes)
    (hdata : u.readData (path env session id) = some content) :
    (resolve env session id).Runs Waits u (resolved env content) u := by
  have hload : (load env (path env session id)).total .ok u = some (.ok m, u) := by
    simp [load, hm, clock, not_le.2 hlive]
  refine .of_total (c := .ok) ?_
  simp only [resolve, Prog.total_bind, hload, Option.bind_some, hcommitted, Bool.true_eq_false,
    if_false]
  rw [if_neg (not_lt.2 hsize), Prog.total_bind, Prog.total_read, Option.bind_some, hdata]
  unfold resolved envelope
  simp only [Option.getD_some]
  generalize parseRequest env _ _ = parsed
  cases parsed with
  | error status => rfl
  | ok request => rfl

/-- Whatever happens while it runs, `Resolve` gives the object that the content is the text of, and
refuses the parameters when it is none, as long as the transfer does not expire. -/
def Resolves (env : Env) (session id : Bytes) (m : Manifest) (content : Bytes) (u : Uploads) : Prop :=
  ∀ r t, (resolve env session id).Runs Waits u r t → t.now < m.expires →
    (∀ w, r = .ok w ↔ ObjectText env content w) ∧
      ∀ status, r = .error status → status.code = utf8 "invalid_params"

/-- **`Resolve` accepts exactly the texts of objects** if and only if the content does not close
the place in the envelope that it is put into. -/
theorem resolves_iff {x : Uploads × Option (Prog Uploads Answer Unit)}
    (hx : (machine env).Reachable x) (session id : Bytes) {m : Manifest}
    (hm : readManifest env x.1 (path env session id) = some m) (hcommitted : m.committed = true)
    (hlive : x.1.now < m.expires) (hsize : m.total ≤ Limits.paramsBytes) :
    ∃ content, x.1.readData (path env session id) = some content ∧ content.length = m.total ∧
      (Resolves env session id m content x.1 ↔ ¬ Splices env content) := by
  have hsound := ((machine_sound env).reachable hx).1
  cases hdata : x.1.readData (path env session id) with
  | none =>
    have hexpired := (hsound.2 (path env session id)).present hm hdata
    omega
  | some content =>
    have hdescribes := (hsound.2 (path env session id)).describes hm hdata
    have hlength : content.length = m.total := by
      have hlower := hdescribes.lower
      have hupper := hdescribes.upper
      have hfull := (hdescribes.committed hcommitted).1
      omega
    refine ⟨content, rfl, hlength, ?_⟩
    rw [← resolved_iff_objectText (by omega)]
    constructor
    · intro hresolves
      exact (hresolves _ _ (resolve_total hm hcommitted hlive hsize hdata) hlive).1
    · intro hexact r t hrun hlive'
      obtain rfl := resolve_runs hm hcommitted hsize hdata hrun hlive'
      refine ⟨hexact, fun status hstatus => ?_⟩
      unfold resolved at hstatus
      split at hstatus
      · cases hstatus
        rfl
      · cases hstatus

end

/-! ## Two transfers -/

/-- A content that is a value and one more member for the envelope. -/
def spliced : Bytes := utf8 "1,\"params\":\x7b\x7d"

/-- The digests of the texts the transfers below hash. -/
def resolveEnv : Env where
  strtod _ := none
  digest data :=
    if data = utf8 "\x7b\x7d" then ⟨[0x44, 0x13, 0x6F, 0xA3, 0x55, 0xB3, 0x67, 0x8A, 0x11, 0x46, 0xAD, 0x16, 0xF7, 0xE8,
    0x64, 0x9E, 0x94, 0xFB, 0x4F, 0xC2, 0x1F, 0xE7, 0x7E, 0x83, 0x10, 0xC0, 0x60, 0xF6,
    0x1C, 0xAA, 0xFF, 0x8A], rfl⟩
    else if data = spliced then ⟨[0xB4, 0xE0, 0x9E, 0x56, 0x1C, 0xCA, 0x37, 0x43, 0x7F, 0xDF, 0x36, 0x35, 0x06, 0xB3,
    0xC5, 0xD3, 0x77, 0xF2, 0x72, 0x49, 0x70, 0x1D, 0xE8, 0x24, 0x43, 0x83, 0xFB, 0x58,
    0x37, 0x14, 0xE1, 0x39], rfl⟩
    else sampleEnv.digest data

/-- `transfer.begin`, one `transfer.chunk` and `transfer.commit`. -/
def upload (content : Bytes) : List Call :=
  [.handle sampleSession "transfer.begin" (Json.object [("transfer", .str "t1"),
      ("bytes", .uint content.length), ("sha256", .str (resolveEnv.sha256 content))]),
    .handle sampleSession "transfer.chunk" (Json.object [("transfer", .str "t1"), ("seq", .uint 0),
      ("data", .str content)]),
    .handle sampleSession "transfer.commit" (Json.object [("transfer", .str "t1")])]

/-- What an upload leaves: a committed transfer of the content. -/
def uploaded (content : Bytes) (u : Uploads) : Bool :=
  (readManifest resolveEnv u (path resolveEnv sampleSession "t1")).any fun m =>
    m.committed && decide (u.now < m.expires) && decide (m.total ≤ Limits.paramsBytes) &&
      decide (u.readData (path resolveEnv sampleSession "t1") = some content)

theorem uploaded_iff {content : Bytes} {u : Uploads} (h : uploaded content u = true) :
    ∃ m, readManifest resolveEnv u (path resolveEnv sampleSession "t1") = some m ∧
      m.committed = true ∧ u.now < m.expires ∧ m.total ≤ Limits.paramsBytes ∧
        u.readData (path resolveEnv sampleSession "t1") = some content := by
  obtain ⟨m, hm, hall⟩ := (Option.any_eq_true _ _).1 h
  simp only [Bool.and_eq_true, decide_eq_true_eq] at hall
  exact ⟨m, hm, hall.1.1.1, hall.1.1.2, hall.1.2, hall.2⟩

/-- The uploads below are served one call after the other. -/
theorem reachable_upload {content : Bytes} {u : Uploads}
    (h : serve resolveEnv (upload content) { now := 1000 } = some u) :
    (machine resolveEnv).Reachable (u, none) :=
  ⟨{ now := 1000 }, ⟨rfl, rfl, by decide⟩, run_serve h⟩

/-- The empty object is resolved. -/
theorem resolves_iff_empty_object : ∃ u m, (machine resolveEnv).Reachable (u, none) ∧
    readManifest resolveEnv u (path resolveEnv sampleSession "t1") = some m ∧
      Resolves resolveEnv sampleSession "t1" m (utf8 "\x7b\x7d") u := by
  have hserve : ((serve resolveEnv (upload (utf8 "\x7b\x7d")) { now := 1000 }).any
      (uploaded (utf8 "\x7b\x7d"))) = true := by
    decide +kernel
  obtain ⟨u, hu, huploaded⟩ := (Option.any_eq_true _ _).1 hserve
  obtain ⟨m, hm, hcommitted, hlive, hsize, hdata⟩ := uploaded_iff huploaded
  obtain ⟨content, hcontent, -, hiff⟩ := resolves_iff (reachable_upload hu) sampleSession "t1" hm
    hcommitted hlive hsize
  rw [hdata] at hcontent
  cases hcontent
  refine ⟨u, m, reachable_upload hu, hm, hiff.2 ?_⟩
  rintro ⟨v, r, -, -, hv, hmore, -⟩
  cases hv
  exact hmore rfl

/-- **`Resolve` also accepts texts that are no object**: this one closes its place in the envelope
with a comma and gives the parameters as a member of its own. -/
theorem resolves_spliced : ¬ ∀ (env : Env) x, (machine env).Reachable x →
    ∀ (session : { s : Bytes // isIdText s = true }) (id : Bytes) (m : Manifest) (content : Bytes),
      readManifest env x.1 (path env session id) = some m → m.committed = true →
      x.1.now < m.expires → x.1.readData (path env session id) = some content →
      content.length ≤ Limits.paramsBytes → Resolves env session id m content x.1 := by
  intro hlaw
  have hserve : ((serve resolveEnv (upload spliced) { now := 1000 }).any fun u =>
      uploaded spliced u && ((resolve resolveEnv sampleSession "t1").total .ok u).any fun r =>
        r.1.toBool && decide (r.2.now = u.now)) = true := by
    decide +kernel
  obtain ⟨u, hu, hboth⟩ := (Option.any_eq_true _ _).1 hserve
  obtain ⟨huploaded, hresolve⟩ := (Bool.and_eq_true _ _).mp hboth
  obtain ⟨m, hm, hcommitted, hlive, -, hdata⟩ := uploaded_iff huploaded
  obtain ⟨⟨r, t⟩, htotal, hr⟩ := (Option.any_eq_true _ _).1 hresolve
  obtain ⟨hok, hnow⟩ := (Bool.and_eq_true _ _).mp hr
  have hresolves := hlaw resolveEnv _ (reachable_upload hu) sampleSession "t1" m spliced hm
    hcommitted hlive hdata (by decide)
  cases r with
  | error status => cases hok
  | ok v =>
    have hlive' : t.now < m.expires := (of_decide_eq_true hnow).trans_lt hlive
    have htext := ((hresolves _ t (.of_total htotal) hlive').1 v).1 rfl
    have hnone : Json.whole resolveEnv.strtod spliced = none := by decide +kernel
    rw [htext.whole] at hnone
    cases hnone

end Uploads

end VppJson
