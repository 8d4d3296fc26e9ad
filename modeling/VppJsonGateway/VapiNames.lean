import VppJsonGateway.InterfaceNames
import VppJsonGateway.VapiBackend

/-!
# The names a call converts with

`Generic` refreshes the interface names before it converts, where the type of its request or of its
answers has an interface. It also converts the completion of an explicit stream, whose type it does
not ask about.
-/

namespace VppJson

open Lib Schema

namespace Vapi

/-! ## What a call does -/

/-- A history goes on with acts of a kind. -/
def Extends (kind : Act → Prop) (log log' : List Act) : Prop :=
  ∃ new, log' = new ++ log ∧ ∀ act ∈ new, kind act

section

variable {kind kind' : Act → Prop} {log log' log'' : List Act}

theorem Extends.refl (log : List Act) : Extends kind log log := ⟨[], rfl, fun _ h => (by cases h)⟩

theorem Extends.trans (h : Extends kind log log') (h' : Extends kind log' log'') :
    Extends kind log log'' := by
  obtain ⟨new, rfl, hnew⟩ := h
  obtain ⟨new', rfl, hnew'⟩ := h'
  exact ⟨new' ++ new, (List.append_assoc _ _ _).symm, List.forall_mem_append.2 ⟨hnew', hnew⟩⟩

theorem Extends.act {act : Act} (hact : kind act) (log : List Act) :
    Extends kind log (act :: log) :=
  ⟨[act], rfl, List.forall_mem_singleton.2 hact⟩

theorem Extends.mono (hkind : ∀ act, kind act → kind' act) (h : Extends kind log log') :
    Extends kind' log log' := by
  obtain ⟨new, hlog, hnew⟩ := h
  exact ⟨new, hlog, fun act hact => hkind act (hnew act hact)⟩

end

/-- What holds before a dispatch loop and is kept by its callbacks holds after it. -/
theorem dispatch_keeps {α σ : Type} {done : σ → Bool} {hear : σ → α → σ} {mutation : Bool}
    {I : σ → Prop} (hhear : ∀ s a, I s → I (hear s a)) (turns : List (Turn α)) :
    ∀ {s : σ}, I s → I (dispatch done hear mutation s turns).2 := by
  have hfold : ∀ (arrivals : List α) {s : σ}, I s → I (arrivals.foldl hear s) := by
    intro arrivals
    induction arrivals with
    | nil => exact fun hs => hs
    | cons a arrivals ih => exact fun hs => ih (hhear _ a hs)
  induction turns with
  | nil =>
    intro s hs
    by_cases hdone : done s = true
    · rwa [dispatch, if_pos hdone]
    · rwa [dispatch, if_neg hdone]
  | cons turn turns ih =>
    intro s hs
    have hturn := hfold turn.arrivals hs
    by_cases hdone : done s = true
    · rwa [dispatch, if_pos hdone]
    rw [dispatch, if_neg hdone]
    by_cases hfailed : turn.rc = .failed
    · simpa only [if_pos hfailed] using hturn
    by_cases hlate : turn.late = true
    · simpa only [if_neg hfailed, if_pos hlate] using hturn
    · simpa only [if_neg hfailed, if_neg hlate] using ih hturn

section

variable {v : Backend} {m : Method}

/-- An item is decoded for the output it arrives under. -/
theorem item_log (output : Bytes) (c : Call) (payload : Bytes) :
    Extends (· = .decoded output) c.work.log (item v output c payload).work.log := by
  have hact : Extends (· = .decoded output) c.work.log (.decoded output :: c.work.log) :=
    .act (by rfl) _
  unfold item
  split_ifs
  · exact .refl _
  · simp only
    split
    · exact hact
    · exact hact

/-- So is every item of a reply. -/
theorem callback_log (output type : Bytes) (items completes : Bool) (c : Call) (a : Arrival) :
    Extends (· = .decoded output) c.work.log
      (callback v output type items completes c a).work.log := by
  by_cases hok : a.ok = false
  · rw [callback, if_pos hok]
    exact .refl _
  have hdone : ∀ c' : Call, Extends (· = .decoded output) c.work.log c'.work.log →
      Extends (· = .decoded output) c.work.log
        (if (completes && a.last) = true then { c' with done := true } else c').work.log := by
    intro c' h
    split_ifs
    · exact h
    · exact h
  rw [callback, if_neg hok]
  refine hdone _ ?_
  cases a.reply with
  | none => exact .refl _
  | some message =>
    simp only
    cases callbackSize v.cat type message with
    | error status => exact .refl _
    | ok size =>
      simp only
      split_ifs
      · exact item_log output _ _
      · exact .refl _
      · exact .refl _

/-- What a call hears of is decoded for the output of its method. -/
theorem hear_log (c : Call) (a : Arrival) :
    Extends (· = .decoded m.output) c.work.log (hear v m c a).work.log := by
  unfold hear
  split_ifs
  · exact callback_log _ _ _ _ _ _
  · exact callback_log _ _ _ _ _ _
  · exact callback_log _ _ _ _ _ _

/-- What a call may do to its history once it has encoded its request. -/
def Ordinary (m : Method) (act : Act) : Prop :=
  act = .encoded m.input ∨ act = .decoded m.output ∨ act = .refreshed ∨ ∃ bytes, act = .sent bytes

/-- The same, with the completions of an explicit stream. -/
def Usual (m : Method) (act : Act) : Prop :=
  Ordinary m act ∨ (m.stream = true ∧ m.streamMsg.isSome = true ∧ act = .decoded m.reply)

/-- A call is sent after its names were asked for. -/
theorem submit_log (page : Page) (bytes : Bytes) (w : Work) :
    (∀ status w', submit v m page bytes w = .inl (status, w') → Extends (Ordinary m) w.log w'.log) ∧
      ∀ status c, submit v m page bytes w = .inr (status, c) →
        Extends (Ordinary m) w.log c.work.log := by
  have hsent : Extends (Ordinary m) w.log (.sent bytes :: w.log) :=
    .act (.inr (.inr (.inr ⟨bytes, rfl⟩))) _
  have hcall : Extends (Ordinary m) w.log (dispatch (·.done) (hear v m) true
      { work := w.note (.sent bytes) } page.turns).2.work.log := by
    refine dispatch_keeps (I := fun c : Call => Extends (Ordinary m) w.log c.work.log) ?_ _ hsent
    intro c a hc
    exact hc.trans ((hear_log c a).mono fun act hact => .inr (.inl hact))
  unfold submit
  constructor
  · intro status w' h
    split_ifs at h
    · cases h
      exact .refl _
    · cases h
      exact .refl _
    · cases h
      exact hsent
    · cases h
      exact hsent
  · intro status c h
    split_ifs at h
    cases h
    exact hcall

/-- The end of a stream is decoded late. -/
theorem streamEnd_log (hstream : m.stream = true) (callParams : Json) (late : Bool)
    (status : Status) (c : Call) :
    Extends (Usual m) c.work.log (streamEnd v m callParams late status c).2.log := by
  unfold streamEnd
  split_ifs with _ _ _ hexplicit
  · exact .refl _
  · exact .refl _
  · exact .refl _
  · exact .act (.inr ⟨hstream, hexplicit, rfl⟩) _
  · exact .refl _

/-- The end of an ordinary call decodes its reply. -/
theorem ordinaryEnd_log (b : Behaviour) (status : Status) (c : Call) :
    Extends (Ordinary m) c.work.log (ordinaryEnd v b m status c).2.log := by
  have hrefreshed : Extends (Ordinary m) c.work.log (.refreshed :: c.work.log) :=
    .act (.inr (.inr (.inl rfl))) _
  have hdecoded : ∀ log : List Act, Extends (Ordinary m) log (.decoded m.output :: log) :=
    .act (.inr (.inl rfl))
  unfold ordinaryEnd
  split_ifs
  · exact .refl _
  · exact .refl _
  · exact .refl _
  · simp only
    split_ifs
    · exact hrefreshed
    · exact hrefreshed.trans (hdecoded _)
  · simp only
    split_ifs
    · exact .refl _
    · exact hdecoded _

/-- A loop over pages does what a call may do, whatever page it starts at. -/
theorem pages_log (b : Behaviour) (left : Nat) : ∀ (n : Nat) (callParams : Json) (w : Work),
    Extends (Usual m) w.log (pages v b m left n callParams w).2.log := by
  induction left with
  | zero => exact fun _ _ _ => .refl _
  | succ left ih =>
    intro n callParams w
    have hencoded : Extends (Usual m) w.log (w.note (.encoded m.input)).log :=
      .act (.inl (.inl rfl)) _
    have husual : ∀ act, Ordinary m act → Usual m act := fun _ => .inl
    rw [pages]
    split
    · exact hencoded
    next bytes _ =>
    obtain ⟨hleft, hright⟩ := submit_log (v := v) (m := m) (b.pages n) bytes
      (w.note (.encoded m.input))
    split
    · next status w' hsubmit => exact hencoded.trans ((hleft _ _ hsubmit).mono husual)
    next status c hsubmit =>
    have hcall := hencoded.trans ((hright _ _ hsubmit).mono husual)
    split_ifs with hstream
    · have hend := hcall.trans (streamEnd_log (v := v) hstream callParams (b.pages n).late status c)
      split
      · next status' w' heq =>
        rw [heq] at hend
        exact hend
      · next params' w' heq =>
        rw [heq] at hend
        exact hend.trans (ih _ _ _)
    · exact hcall.trans ((ordinaryEnd_log b status c).mono husual)

end

/-! ## Stale names -/

/-- A value of a type with interfaces is converted, and the names were not refreshed before it. -/
def Stale (cat : Catalog) (log : List Act) : Prop :=
  ∃ later act earlier type, log = later ++ act :: earlier ∧
    (act = .encoded type ∨ act = .decoded type) ∧ hasInterface cat levels type = true ∧
      .refreshed ∉ earlier

/-- A call of an explicit stream whose completion alone has an interface, on parameters that
encode. -/
structure Uncovered (v : Backend) (request : Json) (m : Method) : Prop where
  describe : methodOf request ≠ utf8 "api.describe"
  methods : methodOf request ≠ utf8 "api.methods"
  found : ∃ found, Json.find (methodOf request) v.methods = some found ∧ m = Method.ofJson found
  supported : m.supported = true
  stream : m.stream = true
  explicit : m.streamMsg.isSome = true
  cursor : (m.automaticCursor && (paramsOf request).contains "cursor") = false
  encodes : ∃ names bytes, Encode v.cat v.native (symbols names) m.input
    (firstParams m (paramsOf request)) = .ok bytes
  input : hasInterface v.cat levels m.input = false
  output : hasInterface v.cat levels m.output = false
  reply : hasInterface v.cat levels m.reply = true

section

variable {v : Backend} {m : Method} {cat : Catalog} {log new : List Act}

/-- Acts that convert no type with interfaces, or that come behind a refresh. -/
theorem not_stale_append (hlog : ¬ Stale cat log)
    (hnew : .refreshed ∈ log ∨ ∀ act ∈ new, ∀ type, act = .encoded type ∨ act = .decoded type →
      hasInterface cat levels type = false) : ¬ Stale cat (new ++ log) := by
  rintro ⟨later, act, earlier, type, hsplit, hact, hinterface, hfresh⟩
  rcases List.append_eq_append_iff.1 hsplit with ⟨middle, rfl, hrest⟩ | ⟨middle, hrest, hbefore⟩
  · exact hlog ⟨middle, act, earlier, type, hrest, hact, hinterface, hfresh⟩
  · cases middle with
    | nil =>
      rw [List.nil_append] at hbefore
      exact hlog ⟨[], act, earlier, type, hbefore.symm, hact, hinterface, hfresh⟩
    | cons a middle =>
      cases hbefore
      rcases hnew with hmem | hplain
      · exact hfresh (List.mem_append_right _ hmem)
      · have hno := hplain act (by rw [hrest]; simp) type hact
        rw [hno] at hinterface
        cases hinterface

/-- Where nothing was decoded nothing is stale. -/
theorem not_stale_nil : ¬ Stale cat [] := by
  rintro ⟨later, act, earlier, type, hsplit, -⟩
  cases later with
  | nil => cases hsplit
  | cons a later => cases hsplit

/-- A covered method is decoded with the names of its own call. -/
theorem call_not_stale (b : Behaviour) (request : Json) (spool : Spool) (names : Names)
    (hcovered : ¬ Uncovered v request m) (hdescribe : methodOf request ≠ utf8 "api.describe")
    (hmethods : methodOf request ≠ utf8 "api.methods")
    (hfound : ∃ found, Json.find (methodOf request) v.methods = some found ∧
      m = Method.ofJson found) :
    ¬ Stale v.cat (call v b (methodOf request) (paramsOf request) m ⟨spool, names, []⟩).2.log := by
  unfold call
  split_ifs with hsupported _ _ hcursor hinterface
  · exact not_stale_nil
  · exact not_stale_nil
  · exact not_stale_nil
  · exact not_stale_nil
  · have hrefreshed : ¬ Stale v.cat ([.refreshed] ++ []) :=
      not_stale_append not_stale_nil (.inr fun act hact type hor => by
        rw [List.mem_singleton.1 hact] at hor
        rcases hor with hor | hor
        · cases hor
        · cases hor)
    simp only
    split_ifs
    · exact hrefreshed
    · obtain ⟨new, hlog, -⟩ := pages_log (v := v) (m := m) b 1024 0
        (firstParams m (paramsOf request)) (Work.refresh ⟨spool, names, []⟩ b.names).2
      have hstale : ¬ Stale v.cat (new ++ ([.refreshed] ++ [])) :=
        not_stale_append hrefreshed (.inl (.head _))
      rw [hlog]
      exact hstale
  · simp only [Bool.or_eq_true, not_or, Bool.not_eq_true] at hinterface
    obtain ⟨hinput, houtput⟩ := hinterface
    change ¬ Stale v.cat
      (pages v b m 1024 0 (firstParams m (paramsOf request)) ⟨spool, names, []⟩).2.log
    cases hencode : Encode v.cat v.native (symbols names) m.input
        (firstParams m (paramsOf request)) with
    | error status =>
      rw [pages]
      simp only [hencode]
      change ¬ Stale v.cat ([.encoded m.input] ++ [])
      refine not_stale_append not_stale_nil (.inr ?_)
      intro act hact type hor
      rw [List.mem_singleton.1 hact] at hor
      rcases hor with hor | hor
      · cases hor
        exact hinput
      · cases hor
    | ok bytes =>
      obtain ⟨new, hlog, hnew⟩ := pages_log (v := v) (m := m) b 1024 0
        (firstParams m (paramsOf request)) ⟨spool, names, []⟩
      rw [hlog]
      refine not_stale_append not_stale_nil (.inr fun act hact type hor => ?_)
      rcases hnew act hact with (rfl | rfl | rfl | ⟨bytes, rfl⟩) | ⟨hstream, hexplicit, rfl⟩
      · rcases hor with hor | hor
        · cases hor
          exact hinput
        · cases hor
      · rcases hor with hor | hor
        · cases hor
        · cases hor
          exact houtput
      · rcases hor with hor | hor
        · cases hor
        · cases hor
      · rcases hor with hor | hor
        · cases hor
        · cases hor
      · rcases hor with hor | hor
        · cases hor
        · cases hor
          by_contra hreply
          exact hcovered ⟨hdescribe, hmethods, hfound, by simpa using hsupported, hstream,
            hexplicit, by simpa using hcursor, ⟨names, bytes, hencode⟩, hinput, houtput,
            by simpa using hreply⟩

/-- A completion without a payload ends a call that hears nothing else. -/
def completing : Behaviour where
  pages _ := { turns := [{ arrivals := [{}] }] }

/-- Beside the methods of the catalog `Generic` converts nothing. -/
theorem ending_cases (v : Backend) (b : Behaviour) (request : Json) (w : Work) :
    (ending v b request w).2.log = w.log ∨
      ∃ found, methodOf request ≠ utf8 "api.describe" ∧ methodOf request ≠ utf8 "api.methods" ∧
        Json.find (methodOf request) v.methods = some found ∧
        ending v b request w =
          call v b (methodOf request) (paramsOf request) (Method.ofJson found) w := by
  by_cases hdescribe : methodOf request = utf8 "api.describe"
  · left
    simp only [ending, if_pos hdescribe]
    split
    · next name _ =>
      by_cases hsize : (paramsOf request).size ≠ 1
      · rw [if_pos hsize]
      · rw [if_neg hsize]
        cases Json.find name v.methods with
        | none => rfl
        | some found => rfl
    · rfl
  by_cases hmethods : methodOf request = utf8 "api.methods"
  · left
    simp only [ending, if_neg hdescribe, if_pos hmethods]
    by_cases hsize : (paramsOf request).size ≠ 0
    · rw [if_pos hsize]
    · rw [if_neg hsize]
  · simp only [ending, if_neg hdescribe, if_neg hmethods]
    cases hfind : Json.find (methodOf request) v.methods with
    | none => exact .inl rfl
    | some found => exact .inr ⟨found, hdescribe, hmethods, rfl, rfl⟩

/-- `Generic` decodes what its call does. -/
theorem generic_log (v : Backend) (b : Behaviour) (request : Json) (w : Work) :
    (generic v b request w).2.log = (ending v b request w).2.log := by
  have hclose : ∀ (id : Bytes) (e : Ending) (w : Work), (w.close v id e).2.log = w.log := by
    intro id e w
    cases e with
    | reply outcome => rfl
    | stream status => rfl
  exact hclose _ _ _

/-- A method whose completion alone has an index decodes it with names of another call. -/
theorem generic_stale {request : Json} (h : Uncovered v request m) :
    ∃ spool names, Stale v.cat (generic v completing request ⟨spool, names, []⟩).2.log := by
  obtain ⟨names, bytes, hencode⟩ := h.encodes
  obtain ⟨found, hfind, rfl⟩ := h.found
  refine ⟨Spool.create [], names, ?_⟩
  have hpages : (ending v completing request ⟨Spool.create [], names, []⟩).2 =
      (pages v completing (Method.ofJson found) 1024 0
        (firstParams (Method.ofJson found) (paramsOf request)) ⟨Spool.create [], names, []⟩).2 := by
    simp only [ending, if_neg h.describe, if_neg h.methods, hfind, call, h.supported, h.cursor,
      h.input, h.output]
    rfl
  have hsubmit : submit v (Method.ofJson found) (completing.pages 0) bytes
      ((⟨Spool.create [], names, []⟩ : Work).note (.encoded (Method.ofJson found).input)) =
      .inr ({}, { done := true, work := ⟨Spool.create [], names,
        [.sent bytes, .encoded (Method.ofJson found).input]⟩ }) := by
    have hhear : ∀ w : Work, hear v (Method.ofJson found) { work := w } {} =
        { done := true, work := w } := by
      intro w
      simp [hear, callback, h.explicit]
    simp only [submit, completing, dispatch, List.foldl, hhear]
    rfl
  have hend : ∀ (callParams : Json) (c : Call), c.status = {} → c.replyStatus = {} →
      c.work.spool.status = {} → c.retval = 0 →
      ∃ status, streamEnd v (Method.ofJson found) callParams false {} c =
        (.inl status, c.work.note (.decoded (Method.ofJson found).reply)) := by
    intro callParams c hstatus hreply hspool hretval
    have hcompletion : ∀ completion : Json,
        completionEnd (Method.ofJson found) callParams false c.retval completion = .inl {} := by
      intro completion
      simp [completionEnd, hretval, streamContinue]
    simp only [streamEnd, hstatus, hreply, hspool, h.explicit, if_true, hcompletion]
    cases Decode v.cat v.native (symbols c.work.names) (Method.ofJson found).reply c.reply with
    | error status => exact ⟨status, rfl⟩
    | ok completion => exact ⟨{}, rfl⟩
  obtain ⟨status, hend⟩ := hend (firstParams (Method.ofJson found) (paramsOf request))
    { done := true, work := ⟨Spool.create [], names,
      [.sent bytes, .encoded (Method.ofJson found).input]⟩ } rfl rfl rfl rfl
  have hlate : (completing.pages 0).late = false := rfl
  rw [generic_log, hpages, pages]
  simp only [hencode, hsubmit, h.stream, if_true, hlate, hend]
  refine ⟨[], .decoded (Method.ofJson found).reply, _, _, rfl, .inr rfl, h.reply, ?_⟩
  simp

/-- **`Generic` converts with names of its own** unless the completion of an explicit stream has an
interface, its request and its details having none. A type without interfaces is converted the same
with any names. -/
theorem resolver_covered_iff (v : Backend) (hcat : IntegerEnums v.cat) (request : Json) :
    ((∀ type, hasInterface v.cat levels type = false → ∀ symbols symbols',
        (∀ value, Encode v.cat v.native symbols type value =
          Encode v.cat v.native symbols' type value) ∧
        ∀ input, Decode v.cat v.native symbols type input =
          Decode v.cat v.native symbols' type input) ∧
      ∀ b spool names, ¬ Stale v.cat (generic v b request ⟨spool, names, []⟩).2.log) ↔
      ¬ ∃ m, Uncovered v request m := by
  constructor
  · rintro ⟨-, hfresh⟩ ⟨m, hm⟩
    obtain ⟨spool, names, hstale⟩ := generic_stale hm
    exact hfresh _ _ _ hstale
  · intro hcovered
    refine ⟨fun type hno symbols symbols' => codec_resolver hcat hno symbols symbols', ?_⟩
    intro b spool names
    rw [generic_log]
    rcases ending_cases v b request ⟨spool, names, []⟩ with
      hlog | ⟨found, hdescribe, hmethods, hfound, hcall⟩
    · rw [hlog]
      exact not_stale_nil
    · rw [hcall]
      exact call_not_stale b request spool names (fun h => hcovered ⟨_, h⟩) hdescribe hmethods
        ⟨found, hfound, rfl⟩

end

/-! ## A stream whose completion has an interface -/

/-- The types of a paginated stream, with the type of its details' one field. -/
def sampleTypes (detail : Bytes) : List (Bytes × TypeDef) :=
  [("vl_api_interface_index_t", .alias "u32" none),
    ("sw_interface_tx_placement_get", .struct [{ name := "cursor", type := "u32" }]),
    ("sw_interface_tx_placement_get_reply", .struct [{ name := "retval", type := "i32" },
      { name := "cursor", type := "u32" },
      { name := "sw_if_index", type := "vl_api_interface_index_t" }]),
    ("sw_interface_tx_placement_details", .struct [{ name := "queue_id", type := detail }])]

/-- A backend with the stream as its one method. -/
def sampleBackend (detail : Bytes) : Backend where
  env := Env.plain
  native := Native.plain
  cat name := (sampleTypes detail).lookup name
  methods := [("vpp.sw_interface_tx_placement_get", Json.object
    [("request", .str "sw_interface_tx_placement_get"),
      ("reply", .str "sw_interface_tx_placement_get_reply"),
      ("stream_msg", .str "sw_interface_tx_placement_details"), ("stream", .bool true),
      ("supported", .bool true), ("automatic_cursor", .bool true)])]

/-- A call of the stream. -/
def sampleRequest : Json :=
  Json.object [("id", .str "r1"), ("method", .str "vpp.sw_interface_tx_placement_get")]

theorem integerEnums_sample (detail : Bytes) : IntegerEnums (sampleBackend detail).cat := by
  intro name type values flags h
  change (sampleTypes detail).lookup name = some (.enum type values flags) at h
  obtain ⟨before, after, hsplit, -⟩ := List.lookup_eq_some_iff.1 h
  have hmem : (name, TypeDef.enum type values flags) ∈ sampleTypes detail := by
    rw [hsplit]
    simp
  simp [sampleTypes] at hmem

/-- The stream's description. -/
def sampleMethod : Method where
  input := "sw_interface_tx_placement_get"
  reply := "sw_interface_tx_placement_get_reply"
  streamMsg := some "sw_interface_tx_placement_details"
  stream := true
  automaticCursor := true

/-- A completion that alone has an index is not covered. -/
theorem uncovered_sample : Uncovered (sampleBackend "u32") sampleRequest sampleMethod where
  describe := by decide
  methods := by decide
  found := ⟨_, rfl, rfl⟩
  supported := rfl
  stream := rfl
  explicit := rfl
  cursor := rfl
  encodes := ⟨∅, _, rfl⟩
  input := by decide +kernel
  output := by decide +kernel
  reply := by decide +kernel

/-- An explicit stream whose items have an index, too, asks for the names. -/
theorem resolver_covered_iff_details : ¬ ∃ b spool names,
    Stale (sampleBackend "vl_api_interface_index_t").cat
      (generic (sampleBackend "vl_api_interface_index_t") b sampleRequest
        ⟨spool, names, []⟩).2.log := by
  intro ⟨b, spool, names, hstale⟩
  refine ((resolver_covered_iff _ (integerEnums_sample _) sampleRequest).2 ?_).2 b spool names hstale
  rintro ⟨m, hm⟩
  obtain ⟨found, hfound, rfl⟩ := hm.found
  cases hfound
  have houtput := hm.output
  revert houtput
  decide +kernel

/-- **`HasInterface` does not cover every use of the name resolver**: the completion of this stream
is converted with names that no refresh of the call has read. -/
theorem resolver_not_covered : ¬ ∀ v : Backend, IntegerEnums v.cat → ∀ request b spool names,
    ¬ Stale v.cat (generic v b request ⟨spool, names, []⟩).2.log := by
  intro hlaw
  obtain ⟨spool, names, hstale⟩ := generic_stale uncovered_sample
  exact hlaw _ (integerEnums_sample _) sampleRequest _ spool names hstale

end Vapi

end VppJson
