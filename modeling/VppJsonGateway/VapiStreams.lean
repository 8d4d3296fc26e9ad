import VppJsonGateway.StreamPages

/-!
# Streams of details

The response of a stream method says `complete` if and only if the whole stream was read and every
detail of it was added.
-/

namespace VppJson

open Lib Schema

namespace Vapi

section

variable {v : Backend} {m : Method} {names : Names}

/-! ## Responses of streams -/

/-- A request for a method with a stream of details. -/
structure StreamCall (v : Backend) (request : Json) (m : Method) : Prop where
  describe : methodOf request ≠ utf8 "api.describe"
  methods : methodOf request ≠ utf8 "api.methods"
  found : ∃ found, Json.find (methodOf request) v.methods = some found ∧ m = Method.ofJson found
  stream : m.stream = true

/-- The whole stream was read, and every detail of it was added to the spool. -/
structure Completes (v : Backend) (b : Behaviour) (request : Json) (m : Method) (names : Names)
    (sp : Spool) (items : List Json) : Prop where
  begins : Begins v b request m
  drained : Drained v b m (namesBefore v b m names) 1024 0 (firstParams m (paramsOf request)) items
  added : ∀ ok ∈ (sp.addAll v.env items).1, ok = true

variable {request : Json}

/-- **A call of a stream** has added details to its spool. It ends with success, and the spool
without a refusal, where it has read the whole stream. -/
theorem stream_ending (hnative : ReportsFloats v.native) (h : StreamCall v request m)
    (b : Behaviour) {spool : Spool} (hspool : spool.status.ok = true) (names : Names) :
    ∃ e w', ending v b request ⟨spool, names, []⟩ = (e, w') ∧ Grown v.env spool w'.spool ∧
      ((∃ status, e = fail status ∧ w'.spool.status.ok = true ∧
          ¬ ∃ items, Completes v b request m names spool items) ∨
        ∃ status, e = .stream status ∧
          ((status.ok = true ∧ w'.spool.status.ok = true) ↔
            ∃ items, Completes v b request m names spool items) ∧
          ∀ items, Completes v b request m names spool items →
            w'.spool = (spool.addAll v.env items).2) := by
  rw [ending_call h.describe h.methods h.found]
  rcases call_cases v b request m ⟨spool, names, []⟩ with
    ⟨hbegins, w₁, hw₁, hnames, hcall⟩ | ⟨hnot, status, w₁, hw₁, hcall⟩
  · have hsame : w₁.spool = spool := hw₁.1
    have hcomplete : ∀ items, Completes v b request m names spool items →
        ∃ w', pages v b m 1024 0 (firstParams m (paramsOf request)) w₁ = (.stream {}, w') ∧
          w'.spool = (spool.addAll v.env items).2 := by
      intro items hitems
      have hadded := (Spool.forall_addAll_iff hspool).1 hitems.added
      rw [← hsame] at hadded ⊢
      exact pages_complete hnative h.stream hitems.drained hnames hadded
    obtain ⟨e, w', hpages, hgrown, hcases⟩ := pages_sound hnative h.stream b 1024 0
      (firstParams m (paramsOf request)) (hsame.symm ▸ hspool : w₁.spool.status.ok = true)
    rw [hsame] at hgrown
    refine ⟨e, w', hcall.trans hpages, hgrown, ?_⟩
    rcases hcases with ⟨status, rfl, hgood⟩ | ⟨status, rfl, hdrained⟩
    · refine .inl ⟨status, rfl, hgood, ?_⟩
      rintro ⟨items, hitems⟩
      obtain ⟨w'', heq, -⟩ := hcomplete items hitems
      rw [hpages] at heq
      cases heq
    · refine .inr ⟨status, rfl, ⟨fun hok => ?_, ?_⟩, fun items hitems => ?_⟩
      · obtain ⟨items, hitems, heq⟩ := hdrained hok.1 hok.2
        rw [hnames] at hitems
        rw [hsame] at heq
        refine ⟨items, hbegins, hitems, (Spool.forall_addAll_iff hspool).2 ?_⟩
        rw [← heq]
        exact hok.2
      · rintro ⟨items, hitems⟩
        obtain ⟨w'', heq, hspool'⟩ := hcomplete items hitems
        rw [hpages] at heq
        cases heq
        rw [hspool']
        exact ⟨rfl, (Spool.forall_addAll_iff hspool).1 hitems.added⟩
      · obtain ⟨w'', heq, hspool'⟩ := hcomplete items hitems
        rw [hpages] at heq
        cases heq
        exact hspool'
  · have hsame : w₁.spool = spool := hw₁.1
    refine ⟨_, _, hcall, ?_, .inl ⟨status, rfl, ?_, ?_⟩⟩
    · rw [hsame]
      exact .refl _ _
    · rw [hsame]
      exact hspool
    · rintro ⟨items, hitems⟩
      exact hnot hitems.begins

/-- A frame that says `complete` is no error. -/
theorem complete_ne_error {id id' : Bytes} {chunks items : Nat} {status : Status} :
    Spool.complete id chunks items ≠ error id' status := by
  intro h
  have htype : (Spool.complete id chunks items).get? "type" = (error id' status).get? "type" := by
    rw [h]
  exact absurd (Json.str.inj (Option.some.inj htype)) (by decide)

/-- **A stream never claims a false `complete`.** Where `Generic` has written its response, the
response ends with its one terminal frame. That frame is `complete` exactly where the whole stream
was read: every page was sent and answered without an error or a deadline, every detail and every
completion of it was within the budget and decoded, every detail was added, every page but the last
asked for another one with a new cursor, and the last one had the `retval` 0, within 1024 pages.
The response then holds the details of all pages in order, and says how many they are. -/
theorem stream_complete_iff (hnative : ReportsFloats v.native) (h : StreamCall v request m)
    (b : Behaviour) (limit : Nat) (names : Names)
    (hok : (generic v b request ⟨Spool.create (idOf request) limit, names, []⟩).1.ok = true) :
    ∃ body last,
      Spool.Terminated v.env (idOf request)
        (generic v b request ⟨Spool.create (idOf request) limit, names, []⟩).2.spool.file
        body last ∧
      ((∃ chunks count, last = Spool.complete (idOf request) chunks count) ↔
        ∃ items, Completes v b request m names (Spool.create (idOf request) limit) items) ∧
      ∀ items, Completes v b request m names (Spool.create (idOf request) limit) items →
        body = Spool.recordsFrames v.env (idOf request) 0
            (items.map (Spool.chunk (idOf request))) ∧
          last = Spool.complete (idOf request) body.length items.length := by
  have hholding := Spool.holding_create (idOf request) limit
  obtain ⟨e, w', hending, ⟨added, hgrown⟩, hcases⟩ := stream_ending hnative h b
    (rfl : (Spool.create (idOf request) limit).status.ok = true) names
  obtain ⟨count, part, hadded⟩ := Spool.addAll_added v.env added hholding rfl
  have hheld := hadded.holding
  have hbody := hadded.inner
  rw [← hgrown] at hheld
  rw [generic, hending] at hok ⊢
  rcases hcases with ⟨status, rfl, -, hnot⟩ | ⟨status, rfl, hiff, hitems⟩
  · obtain ⟨body, last, hterminated, status', hlast⟩ := hheld.single_file hbody hok
    refine ⟨body, last, hterminated, ⟨?_, fun h => absurd h hnot⟩, ?_⟩
    · rintro ⟨chunks, count, hcomplete⟩
      exact absurd (hcomplete.symm.trans hlast) complete_ne_error
    · intro items hcompletes
      exact absurd ⟨items, hcompletes⟩ hnot
  · rcases Spool.terminal_cases hheld.id_eq status with
      ⟨hterminal, hgood⟩ | ⟨⟨status', hterminal⟩, hbad⟩
    · obtain ⟨items, hcompletes⟩ := hiff.1 hgood
      have hspool := hitems items hcompletes
      obtain ⟨hwhole, hcount⟩ := Spool.addAll_whole (hspool ▸ hgood.2)
      rw [← hspool] at hwhole hcount
      rw [hwhole.seq, hcount] at hterminal
      refine ⟨_, _, ⟨.inl (hwhole.finish_file hok), Spool.inner_of_records, .inl ⟨_, _, hterminal⟩⟩,
        ⟨fun _ => ⟨items, hcompletes⟩, fun _ => ⟨_, _, hterminal⟩⟩, ?_⟩
      intro items' hcompletes'
      obtain rfl := hcompletes.drained.functional hcompletes'.drained
      exact ⟨rfl, hterminal⟩
    · refine ⟨_, _, ⟨.inl (hheld.finish_file hok), hbody, .inr ⟨_, hterminal⟩⟩,
        ⟨?_, fun h => absurd (hiff.2 h) hbad⟩, ?_⟩
      · rintro ⟨chunks, count, hcomplete⟩
        exact absurd (hcomplete.symm.trans hterminal) complete_ne_error
      · intro items hcompletes
        exact absurd (hiff.2 ⟨items, hcompletes⟩) hbad

/-! ## What the gateway takes a backend for -/

/-- An ordinary call replies, and adds nothing to its spool. -/
theorem ordinary_ending (h : OrdinaryCall v request m) (b : Behaviour) (spool : Spool)
    (names : Names) : ∃ outcome w',
      ending v b request ⟨spool, names, []⟩ = (.reply outcome, w') ∧ w'.spool = spool := by
  rcases ordinary_cases h b spool names with
    ⟨-, outcome, w', hending, -, hsame, -⟩ | ⟨-, status, w', hending, hsame, -⟩
  · exact ⟨outcome, w', hending, hsame⟩
  · exact ⟨.error status, w', hending, hsame⟩

/-- A generated method with details is a stream. -/
def Streaming (v : Backend) : Prop :=
  ∀ name found, Json.find name v.methods = some found →
    (Method.ofJson found).streamMsg.isSome = true → (Method.ofJson found).stream = true

/-- **`Generic` is a backend of the gateway**: what it does with its spool is one of the reactions
the gateway is proved against. -/
theorem generic_serves (hnative : ReportsFloats v.native) (hstreams : Streaming v)
    (hid : isIdText (idOf request) = true) (b : Behaviour) {spool : Spool}
    (hspool : spool.status.ok = true) (names : Names) :
    ∃ reaction : Reaction, ((generic v b request ⟨spool, names, []⟩).1,
        (generic v b request ⟨spool, names, []⟩).2.spool) =
      spool.serve v.env (reaction.output (idOf request)) := by
  have hreply : ∀ outcome w', ending v b request ⟨spool, names, []⟩ = (.reply outcome, w') →
      w'.spool = spool → ∃ reaction : Reaction, ((generic v b request ⟨spool, names, []⟩).1,
        (generic v b request ⟨spool, names, []⟩).2.spool) =
          spool.serve v.env (reaction.output (idOf request)) := by
    intro outcome w' hending hsame
    rw [generic, hending]
    refine ⟨.reply outcome, ?_⟩
    simp only [Reaction.output, Spool.serve]
    rw [← hsame]
    rfl
  by_cases hdescribe : methodOf request = utf8 "api.describe"
  · have hdescribes : ∃ outcome,
        ending v b request ⟨spool, names, []⟩ = (.reply outcome, ⟨spool, names, []⟩) := by
      simp only [ending, if_pos hdescribe]
      split
      · next name _ =>
        by_cases hsize : (paramsOf request).size ≠ 1
        · rw [if_pos hsize]
          exact ⟨_, rfl⟩
        · rw [if_neg hsize]
          cases Json.find name v.methods with
          | none => exact ⟨_, rfl⟩
          | some found => exact ⟨_, rfl⟩
      · exact ⟨_, rfl⟩
    obtain ⟨outcome, hending⟩ := hdescribes
    exact hreply _ _ hending rfl
  by_cases hmethods : methodOf request = utf8 "api.methods"
  · by_cases hsize : (paramsOf request).size ≠ 0
    · refine hreply (.error ⟨"invalid_params", "api.methods takes no parameters"⟩)
        ⟨spool, names, []⟩ ?_ rfl
      simp only [ending, if_neg hdescribe, if_pos hmethods, if_pos hsize]
      rfl
    · simp only [generic, ending, if_neg hdescribe, if_pos hmethods, if_neg hsize]
      exact ⟨.stream _ {}, rfl⟩
  cases hfound : Json.find (methodOf request) v.methods with
  | none =>
    refine hreply (.error ⟨"method_not_found", "Method is not supported"⟩)
      ⟨spool, names, []⟩ ?_ rfl
    simp only [ending, if_neg hdescribe, if_neg hmethods, hfound]
    rfl
  | some found =>
    cases hstream : (Method.ofJson found).stream with
    | true =>
      obtain ⟨e, w', hending, ⟨items, hitems⟩, hcases⟩ := stream_ending hnative
        ⟨hdescribe, hmethods, ⟨found, hfound, rfl⟩, hstream⟩ b hspool names
      rw [generic, hending]
      rcases hcases with ⟨status, rfl, hgood, -⟩ | ⟨status, rfl, -⟩
      · rw [hitems] at hgood
        refine ⟨.broken items status, ?_⟩
        simp only [Reaction.output, Spool.serve, if_pos hgood]
        rw [← hitems]
        rfl
      · refine ⟨.stream items status, ?_⟩
        simp only [Reaction.output, Spool.serve]
        rw [← hitems]
        rfl
    | false =>
      have hsingle : (Method.ofJson found).streamMsg = none := by
        by_contra hsome
        have hstream' := hstreams _ _ hfound (Option.isSome_iff_ne_none.2 hsome)
        rw [hstream] at hstream'
        cases hstream'
      obtain ⟨outcome, w', hending, hsame⟩ := ordinary_ending
        ⟨hid, hdescribe, hmethods, ⟨found, hfound, rfl⟩, hstream, hsingle⟩ b spool names
      exact hreply outcome w' hending hsame

end

/-! ## Two pages, and a completion that does not decode -/

/-- The request of the example is for its stream method. -/
theorem streamCall_sample (detail : Bytes) :
    StreamCall (sampleBackend detail) sampleRequest sampleMethod where
  describe := by decide
  methods := by decide
  found := ⟨_, rfl, rfl⟩
  stream := rfl

/-- The library functions of the examples fail with an error code. -/
theorem reportsFloats_plain : ReportsFloats Native.plain := by
  intro width data status h
  cases h
  rfl

/-- VPP brings the detail 7 and asks for another page, and brings the detail 9 with that. -/
def twoPages : Behaviour where
  pages n := { turns := [{ arrivals := [
    { details := true, last := false, reply := some [if n = 0 then 7 else 9, 0, 0, 0] },
    { reply := some (if n = 0 then [91, 255, 255, 255, 3, 0, 0, 0, 255, 255, 255, 255]
      else [0, 0, 0, 0, 0, 0, 0, 0, 255, 255, 255, 255]) }] }] }

/-- A stream of two pages, both with an item. -/
theorem stream_complete_iff_twoPages : ∃ body last,
    Spool.Terminated Env.plain "r1" (generic (sampleBackend "u32") twoPages sampleRequest
      ⟨Spool.create "r1" 4096, ∅, []⟩).2.spool.file body last ∧
    ((∃ chunks count, last = Spool.complete "r1" chunks count) ↔ ∃ items, Completes
      (sampleBackend "u32") twoPages sampleRequest sampleMethod ∅ (Spool.create "r1" 4096) items) := by
  obtain ⟨body, last, hterminated, hiff, -⟩ := stream_complete_iff reportsFloats_plain
    (streamCall_sample "u32") twoPages 4096 ∅ (by decide +kernel)
  exact ⟨body, last, hterminated, hiff⟩

/-- The same stream, as the gateway sees it. -/
theorem generic_serves_twoPages : ∃ reaction : Reaction,
    ((generic (sampleBackend "u32") twoPages sampleRequest ⟨Spool.create "r1" 4096, ∅, []⟩).1,
      (generic (sampleBackend "u32") twoPages sampleRequest
        ⟨Spool.create "r1" 4096, ∅, []⟩).2.spool) =
      (Spool.create "r1" 4096).serve Env.plain (reaction.output "r1") := by
  have hstreams : Streaming (sampleBackend "u32") := by
    intro name found hfind _
    rw [sampleBackend, Json.find] at hfind
    split at hfind
    · cases hfind
      rfl
    · cases hfind
  exact generic_serves reportsFloats_plain hstreams (by decide) twoPages rfl ∅

/-- VPP brings the detail 7, and completes the stream with an interface that has no name. -/
def unnamedCompletion : Behaviour where
  pages _ := { turns := [{ arrivals := [
    { details := true, last := false, reply := some [7, 0, 0, 0] },
    { reply := some [0, 0, 0, 0, 0, 0, 0, 0, 5, 0, 0, 0] }] }] }

/-- The page of the example is brought as a whole. -/
theorem delivered_unnamed : Delivered (sampleBackend "u32") sampleMethod ∅
    (unnamedCompletion.pages 0) (firstParams sampleMethod (paramsOf sampleRequest))
    [.obj [("queue_id", .uint 7)]] where
  encodes := ⟨_, rfl⟩
  fd := rfl
  configured := rfl
  answered := ⟨rfl, rfl, rfl, by decide⟩
  budgeted := by
    intro a ha status
    rcases List.mem_cons.1 ha with rfl | ha
    · change some (Except.ok [7, 0, 0, 0]) ≠ some (Except.error status)
      exact fun h => (by cases h)
    · rw [List.mem_singleton.1 ha]
      change some (Except.ok [0, 0, 0, 0, 0, 0, 0, 0, 5, 0, 0, 0]) ≠ some (Except.error status)
      exact fun h => (by cases h)
  details := .cons rfl .nil

/-- **A completion that does not decode ends a stream with an error**, though every detail of its
one page was added and its `retval` is 0. -/
theorem undecoded_completion : ¬ ∀ (v : Backend) (b : Behaviour) (request : Json) (m : Method)
    (limit : Nat) (items : List Json), ReportsFloats v.native → StreamCall v request m →
    m.streamMsg.isSome = true → Begins v b request m →
    Delivered v m (namesBefore v b m ∅) (b.pages 0) (firstParams m (paramsOf request)) items →
    lastRetval v m ((b.pages 0).heard m) = 0 → (b.pages 0).late = false →
    (∀ ok ∈ ((Spool.create (idOf request) limit).addAll v.env items).1, ok = true) →
    (generic v b request ⟨Spool.create (idOf request) limit, ∅, []⟩).1.ok = true →
    ∀ body last, Spool.Terminated v.env (idOf request)
        (generic v b request ⟨Spool.create (idOf request) limit, ∅, []⟩).2.spool.file body last →
      ∃ chunks count, last = Spool.complete (idOf request) chunks count := by
  intro hlaw
  obtain ⟨chunks, count, hlast⟩ := hlaw (sampleBackend "u32") unnamedCompletion sampleRequest
    sampleMethod 4096 _ reportsFloats_plain (streamCall_sample "u32") rfl
    ⟨rfl, rfl, rfl, rfl, fun h => absurd h (by decide +kernel)⟩ delivered_unnamed
    (by decide +kernel) rfl (by decide +kernel) (by decide +kernel)
    [Spool.chunk "r1" (.obj [("queue_id", .uint 7)])]
    (error "r1" ⟨"resource_not_found", "sw_if_index: VPP returned an unresolved interface index"⟩)
    ⟨.inl (by decide +kernel), fun frame hframe => .inl (by rw [List.mem_singleton.1 hframe]; rfl),
      .inr ⟨_, rfl⟩⟩
  exact complete_ne_error hlast.symm

end Vapi

end VppJson
