import VppJsonGateway.StreamFiles

/-!
# Pages of details

A stream method brings its details over any number of pages. `Drained` says what VPP and the
transport must have done for the whole of it to have been read; a call reads the whole stream then
and only then.
-/

namespace VppJson

open Lib Schema

/-! ## Errors of the codec -/

namespace Schema

/-- A failure has an error code. -/
def Reports {α : Type} (r : Except Status α) : Prop := ∀ status, r = .error status → status.ok = false

/-- The library functions fail with an error code. -/
def ReportsFloats (native : Native) : Prop := ∀ width data, Reports (native.floatValue width data)

/-- An error code is not empty. -/
theorem Reports.fails {α : Type} {r : Except Status α} (h : Reports r) : Fails (· ≠ []) r := by
  intro status hr hcode
  have hok := h status hr
  rw [Status.ok, hcode] at hok
  cases hok

/-- **A failed conversion has an error code.** -/
theorem reports_Decode {native : Native} {cat : Catalog} (hnative : ReportsFloats native)
    (names : Vapi.Names) (type input : Bytes) :
    Reports (Decode cat native (Vapi.symbols names) type input) := by
  have hcodes : Codes (· ≠ []) native (Vapi.symbols names) :=
    Vapi.codes_symbols (by decide) (fun _ _ => (hnative _ _).fails) names
  intro status hr
  have hcode : status.code ≠ [] := hcodes.Decode type input status hr
  cases hempty : status.ok with
  | false => rfl
  | true => exact absurd (List.isEmpty_iff.1 hempty) hcode

end Schema

namespace Vapi

/-- A spool some items were added to. -/
def Grown (env : Env) (sp sp' : Spool) : Prop := ∃ items, sp' = (sp.addAll env items).2

/-- A spool is grown from itself by nothing. -/
theorem Grown.refl (env : Env) (sp : Spool) : Grown env sp sp := ⟨[], rfl⟩

/-- What is added in turn is added together. -/
theorem Grown.trans {env : Env} {sp sp' sp'' : Spool} (h : Grown env sp sp')
    (h' : Grown env sp' sp'') : Grown env sp sp'' := by
  obtain ⟨items, rfl⟩ := h
  obtain ⟨items', rfl⟩ := h'
  exact ⟨items ++ items', (Spool.addAll_append _ _ _).symm⟩

section

variable (v : Backend) (m : Method) (names : Names)

/-- A payload is converted to a detail. -/
def IsDetail (data : Bytes) (detail : Json) : Prop :=
  Decode v.cat v.native (symbols names) m.output data = .ok detail

/-- `call.item`, on what it reads and writes. -/
def itemStep (s : Status × Work) (data : Bytes) : Status × Work :=
  if !s.1.ok || !s.2.spool.status.ok then s
  else
    match Decode v.cat v.native (symbols s.2.names) m.output data with
    | .error status => (status, s.2.note (.decoded m.output))
    | .ok value =>
      ({}, { s.2.note (.decoded m.output) with spool := (s.2.spool.add v.env value).2 })

end

section

variable {v : Backend} {m : Method} {names : Names}

/-- `call.item` changes the status of the details and the work only. -/
theorem item_eq (c : Call) (data : Bytes) :
    item v m.output c data = { c with
      replyStatus := (itemStep v m (c.replyStatus, c.work) data).1
      work := (itemStep v m (c.replyStatus, c.work) data).2 } := by
  unfold item itemStep
  split_ifs
  · rfl
  · simp only [Work.note]
    cases Decode v.cat v.native (symbols c.work.names) m.output data with
    | error status => rfl
    | ok value => rfl

/-- A callback's part in the details. -/
theorem hear_items {c : Call} {a : Arrival} (hstatus : c.status = {})
    (hbudget : ∀ status, payload v m a ≠ some (.error status)) :
    ((hear v m c a).replyStatus, (hear v m c a).work) =
      (itemOf v m a).toList.foldl (itemStep v m) (c.replyStatus, c.work) := by
  have hok : c.status.ok = true := by
    rw [hstatus]
    rfl
  rw [hear_eq]
  simp only [effect, itemOf, hok, if_true]
  cases hpayload : payload v m a with
  | none => simp
  | some result =>
    cases result with
    | error status => exact absurd hpayload (hbudget status)
    | ok data =>
      cases brings m a with
      | false => simp
      | true =>
        simp only [if_true, item_eq]
        rfl

/-- The callbacks of a page within the budget convert its details one after the other. -/
theorem foldl_items {arrivals : List Arrival} : ∀ {c : Call}, Budgeted v m arrivals →
    c.status = {} →
      ((arrivals.foldl (hear v m) c).replyStatus, (arrivals.foldl (hear v m) c).work) =
        (arrivals.filterMap (itemOf v m)).foldl (itemStep v m) (c.replyStatus, c.work) := by
  induction arrivals with
  | nil => exact fun _ _ => rfl
  | cons a arrivals ih =>
    intro c hbudget hstatus
    have hnext : (hear v m c a).status = {} := by
      rw [hear_status]
      split
      · next status h => exact absurd h (hbudget a List.mem_cons_self status)
      · exact hstatus
    rw [List.foldl_cons, ih (fun b hb => hbudget b (List.mem_cons_of_mem _ hb)) hnext,
      hear_items hstatus (hbudget a List.mem_cons_self), ← List.foldl_append]
    congr 1
    cases h : itemOf v m a with
    | none => simp [h]
    | some data => simp [h]

/-- Behind a failure nothing is converted. -/
theorem steps_stuck {s : Status × Work} (h : s.1.ok = false ∨ s.2.spool.status.ok = false)
    (datas : List Bytes) : datas.foldl (itemStep v m) s = s := by
  have hstep : ∀ data, itemStep v m s data = s := by
    intro data
    rw [itemStep, if_pos]
    rcases h with h | h
    · simp [h]
    · simp [h]
  induction datas with
  | nil => rfl
  | cons data datas ih => rw [List.foldl_cons, hstep, ih]

/-- **The details of a page**, added one after the other: all of them, or the first that fails. -/
theorem steps_spool (hnative : ReportsFloats v.native) (datas : List Bytes) : ∀ {s : Status × Work},
    s.1.ok = true → s.2.spool.status.ok = true →
    (datas.foldl (itemStep v m) s).2.names = s.2.names ∧
      ((datas.foldl (itemStep v m) s).1.ok = true →
        (datas.foldl (itemStep v m) s).2.spool.status.ok = true →
        ∃ items, List.Forall₂ (IsDetail v m s.2.names) datas items ∧
          (datas.foldl (itemStep v m) s).2.spool = (s.2.spool.addAll v.env items).2) ∧
      (∀ items, List.Forall₂ (IsDetail v m s.2.names) datas items →
        (s.2.spool.addAll v.env items).2.status.ok = true →
          (datas.foldl (itemStep v m) s).1.ok = true ∧
            (datas.foldl (itemStep v m) s).2.spool = (s.2.spool.addAll v.env items).2) := by
  induction datas with
  | nil =>
    intro s hreply hspool
    refine ⟨rfl, fun _ _ => ⟨[], .nil, rfl⟩, fun items hitems _ => ?_⟩
    cases hitems
    exact ⟨hreply, rfl⟩
  | cons data datas ih =>
    intro s hreply hspool
    have hgo : ¬ ((!s.1.ok || !s.2.spool.status.ok) = true) := by simp [hreply, hspool]
    rw [List.foldl_cons, itemStep, if_neg hgo]
    cases hdecode : Decode v.cat v.native (symbols s.2.names) m.output data with
    | error status =>
      have hbad := reports_Decode hnative _ _ _ status hdecode
      rw [steps_stuck (.inl hbad)]
      refine ⟨rfl, fun hok => ?_, fun items hitems _ => ?_⟩
      · rw [hbad] at hok
        cases hok
      · cases hitems with
        | cons hdetail _ =>
          rw [IsDetail, hdecode] at hdetail
          cases hdetail
    | ok value =>
      simp only
      cases hadded : (s.2.spool.add v.env value).2.status.ok with
      | false =>
        rw [steps_stuck (.inr hadded)]
        refine ⟨rfl, fun _ hok => ?_, fun items hitems hok => ?_⟩
        · rw [hadded] at hok
          cases hok
        · cases hitems with
          | @cons _ value' _ _ hdetail _ =>
            rw [IsDetail, hdecode] at hdetail
            cases hdetail
            have hgood := @Spool.ok_of_addAll v.env (s.2.spool.add v.env value).2 _ hok
            rw [hadded] at hgood
            cases hgood
      | true =>
        obtain ⟨hnames, hsome, hall⟩ := @ih ({}, { s.2.note (.decoded m.output) with
          spool := (s.2.spool.add v.env value).2 }) rfl hadded
        refine ⟨hnames, fun hok hspool' => ?_, fun items hitems hok => ?_⟩
        · obtain ⟨items, hitems, heq⟩ := hsome hok hspool'
          exact ⟨value :: items, .cons hdecode hitems, heq⟩
        · cases hitems with
          | @cons _ value' _ items' hdetail hrest =>
            rw [IsDetail, hdecode] at hdetail
            cases hdetail
            exact hall items' hrest hok

/-- What a page leaves of the spool, whatever happens. -/
theorem hear_grown (c : Call) (a : Arrival) :
    (hear v m c a).work.names = c.work.names ∧
      Grown v.env c.work.spool (hear v m c a).work.spool := by
  have hsame : c.work.names = c.work.names ∧ Grown v.env c.work.spool c.work.spool :=
    ⟨rfl, .refl _ _⟩
  rw [hear_eq]
  simp only [effect]
  cases payload v m a with
  | none => exact hsame
  | some result =>
    cases result with
    | error status => exact hsame
    | ok data =>
      simp only
      split_ifs
      · rw [item_eq]
        simp only [itemStep]
        split_ifs
        · exact hsame
        · simp only [Work.note]
          cases Decode v.cat v.native (symbols c.work.names) m.output data with
          | error status => exact hsame
          | ok value => exact ⟨rfl, [value], rfl⟩
      · exact hsame
      · exact hsame

/-- The callbacks of a page add items to the spool, and leave the names. -/
theorem Page.call_grown (page : Page) (bytes : Bytes) (w : Work) :
    (page.call m v bytes w).work.names = w.names ∧
      Grown v.env w.spool (page.call m v bytes w).work.spool := by
  have hfold : ∀ (arrivals : List Arrival) (c : Call),
      (arrivals.foldl (hear v m) c).work.names = c.work.names ∧
        Grown v.env c.work.spool (arrivals.foldl (hear v m) c).work.spool := by
    intro arrivals
    induction arrivals with
    | nil => exact fun c => ⟨rfl, .refl _ _⟩
    | cons a arrivals ih =>
      intro c
      obtain ⟨hnames, hgrown⟩ := ih (hear v m c a)
      obtain ⟨hnames', hgrown'⟩ := hear_grown (v := v) (m := m) c a
      exact ⟨hnames.trans hnames', hgrown'.trans hgrown⟩
  exact hfold (page.heard m) { work := w.note (.sent bytes) }

/-! ## Pages -/

/-- A page that VPP and the transport have brought as a whole. -/
structure Delivered (v : Backend) (m : Method) (names : Names) (page : Page) (params : Json)
    (items : List Json) : Prop where
  encodes : ∃ bytes, Encode v.cat v.native (symbols names) m.input params = .ok bytes
  fd : page.fd = true
  configured : page.configured = true
  answered : page.Answered m
  budgeted : Budgeted v m (page.heard m)
  details : List.Forall₂ (IsDetail v m names) ((page.heard m).filterMap (itemOf v m)) items

/-- The completion of a page. -/
def Completion (v : Backend) (m : Method) (names : Names) (page : Page) (completion : Json) : Prop :=
  Decode v.cat v.native (symbols names) m.reply (lastReply v m (page.heard m)) = .ok completion

/-- A stream is drained from a page on, in at most so many pages: the details they bring. -/
inductive Drained (v : Backend) (b : Behaviour) (m : Method) (names : Names) :
    Nat → Nat → Json → List Json → Prop
  | dump {left n : Nat} {params : Json} {items : List Json} (implicit : m.streamMsg = none)
      (page : Delivered v m names (b.pages n) params items) :
      Drained v b m names (left + 1) n params items
  | last {left n : Nat} {params : Json} {items : List Json} (explicit : m.streamMsg.isSome = true)
      (page : Delivered v m names (b.pages n) params items) (completion : Json)
      (completes : Completion v m names (b.pages n) completion)
      (retval : lastRetval v m ((b.pages n).heard m) = 0) :
      Drained v b m names (left + 1) n params items
  | more {left n : Nat} {params : Json} {items items' : List Json}
      (explicit : m.streamMsg.isSome = true) (automatic : m.automaticCursor = true)
      (page : Delivered v m names (b.pages n) params items) (completion : Json)
      (completes : Completion v m names (b.pages n) completion)
      (retval : lastRetval v m ((b.pages n).heard m) = streamContinue) (cursor : Nat)
      (next : cursor? completion = some cursor) (other : cursor? params ≠ some cursor)
      (early : (b.pages n).late = false)
      (rest : Drained v b m names left (n + 1) (params.set "cursor" (.uint cursor)) items') :
      Drained v b m names (left + 1) n params (items ++ items')

/-- A call that has brought the details of its page. -/
structure Brought (v : Backend) (m : Method) (page : Page) (w : Work) (items : List Json)
    (c : Call) : Prop where
  status : c.status = {}
  replyStatus : c.replyStatus.ok = true
  spool : c.work.spool = (w.spool.addAll v.env items).2
  added : c.work.spool.status.ok = true
  names : c.work.names = w.names
  retval : c.retval = lastRetval v m (page.heard m)
  reply : c.reply = lastReply v m (page.heard m)

/-- A page within the budget brings its details, or one that fails. -/
theorem brought_iff (hnative : ReportsFloats v.native) {page : Page} {w : Work}
    (hbudget : Budgeted v m (page.heard m)) (hspool : w.spool.status.ok = true) (bytes : Bytes) :
    ((page.call m v bytes w).replyStatus.ok = true →
      (page.call m v bytes w).work.spool.status.ok = true →
      ∃ items, List.Forall₂ (IsDetail v m w.names) ((page.heard m).filterMap (itemOf v m)) items ∧
        Brought v m page w items (page.call m v bytes w)) ∧
    ∀ items, List.Forall₂ (IsDetail v m w.names) ((page.heard m).filterMap (itemOf v m)) items →
      (w.spool.addAll v.env items).2.status.ok = true →
      Brought v m page w items (page.call m v bytes w) := by
  have hsteps : ((page.call m v bytes w).replyStatus, (page.call m v bytes w).work) =
      ((page.heard m).filterMap (itemOf v m)).foldl (itemStep v m) ({}, w.note (.sent bytes)) :=
    foldl_items hbudget rfl
  have hspec := @steps_spool v m hnative ((page.heard m).filterMap (itemOf v m))
    ({}, w.note (.sent bytes)) rfl hspool
  rw [← hsteps] at hspec
  obtain ⟨hnames, hsome, hall⟩ := hspec
  obtain ⟨hstatus, hreply⟩ := Page.call_budgeted hbudget bytes w
  constructor
  · intro hok hadded
    obtain ⟨items, hitems, heq⟩ := hsome hok hadded
    exact ⟨items, hitems, hstatus, hok, heq, hadded, hnames, Page.call_retval page bytes w, hreply⟩
  · intro items hitems hadded
    obtain ⟨hok, heq⟩ := hall items hitems hadded
    refine ⟨hstatus, hok, heq, ?_, hnames, Page.call_retval page bytes w, hreply⟩
    simp only at heq
    rw [heq]
    exact hadded

/-- What a page whose details are there ends with. -/
theorem streamEnd_brought {page : Page} {w : Work} {items : List Json} {c : Call}
    (h : Brought v m page w items c) (callParams : Json) (late : Bool) :
    streamEnd v m callParams late {} c =
      if m.streamMsg.isSome then
        (match Decode v.cat v.native (symbols w.names) m.reply (lastReply v m (page.heard m)) with
          | .error status => .inl status
          | .ok completion =>
            completionEnd m callParams late (lastRetval v m (page.heard m)) completion,
          c.work.note (.decoded m.reply))
      else (.inl {}, c.work) := by
  rw [streamEnd, h.status, h.replyStatus, h.added, h.names, h.retval, h.reply]
  cases Decode v.cat v.native (symbols w.names) m.reply (lastReply v m (page.heard m)) with
  | error status => rfl
  | ok completion => rfl

/-- One page of a stream: it is encoded, submitted, read, and asks for the next one if VPP says that
there is more. -/
theorem pages_stream (hstream : m.stream = true) (b : Behaviour) (left n : Nat) (callParams : Json)
    (w : Work) : pages v b m (left + 1) n callParams w =
      match Encode v.cat v.native (symbols w.names) m.input callParams with
      | .error status => (fail status, w.note (.encoded m.input))
      | .ok bytes =>
        match submit v m (b.pages n) bytes (w.note (.encoded m.input)) with
        | .inl (status, w) => (fail status, w)
        | .inr (status, c) =>
          match streamEnd v m callParams (b.pages n).late status c with
          | (.inl status, w) => (.stream status, w)
          | (.inr callParams, w) => pages v b m left (n + 1) callParams w := by
  rw [pages]
  cases Encode v.cat v.native (symbols w.names) m.input callParams with
  | error status => rfl
  | ok bytes =>
    dsimp only
    cases submit v m (b.pages n) bytes (w.note (.encoded m.input)) with
    | inl failed => rfl
    | inr sent =>
      obtain ⟨status, c⟩ := sent
      exact if_pos hstream

/-- **A page**: it fails before it is sent or as a whole, it ends the stream with an error, or it
is delivered. -/
theorem page_cases (hnative : ReportsFloats v.native) (hstream : m.stream = true) (b : Behaviour)
    (left n : Nat) (callParams : Json) {w : Work} (hspool : w.spool.status.ok = true) :
    (∃ status w', pages v b m (left + 1) n callParams w = (fail status, w') ∧
      w'.spool = w.spool) ∨
    (∃ status w', pages v b m (left + 1) n callParams w = (.stream status, w') ∧
      Grown v.env w.spool w'.spool ∧ ¬ (status.ok = true ∧ w'.spool.status.ok = true)) ∨
    ∃ items c, Delivered v m w.names (b.pages n) callParams items ∧
      Brought v m (b.pages n) w items c ∧
      pages v b m (left + 1) n callParams w =
        match streamEnd v m callParams (b.pages n).late {} c with
        | (.inl status, w) => (.stream status, w)
        | (.inr callParams, w) => pages v b m left (n + 1) callParams w := by
  rw [pages_stream hstream]
  cases hencode : Encode v.cat v.native (symbols w.names) m.input callParams with
  | error status => exact .inl ⟨status, _, rfl, rfl⟩
  | ok bytes =>
  simp only
  by_cases hready : (b.pages n).fd = true ∧ (b.pages n).configured = true
  · obtain ⟨hfd, hconfigured⟩ := hready
    have hgrown := (Page.call_grown (v := v) (m := m) (b.pages n) bytes
      (w.note (.encoded m.input))).2
    rcases submit_sent (v := v) (m := m) hfd hconfigured bytes (w.note (.encoded m.input)) with
      ⟨hanswered, hsubmit⟩ | ⟨-, -, status, hunknown, hsubmit⟩ | ⟨-, status, -, hsubmit⟩
    · rw [hsubmit]
      simp only
      have hgood : Status.ok {} = true := rfl
      by_cases hbudget : Budgeted v m ((b.pages n).heard m)
      · have hiff := @brought_iff v m hnative (b.pages n) (w.note (.encoded m.input)) hbudget hspool
          bytes
        cases hadded : ((b.pages n).call m v bytes (w.note (.encoded m.input))).replyStatus.ok &&
            ((b.pages n).call m v bytes (w.note (.encoded m.input))).work.spool.status.ok with
        | true =>
          rw [Bool.and_eq_true] at hadded
          obtain ⟨items, hitems, hbrought⟩ := hiff.1 hadded.1 hadded.2
          exact .inr (.inr ⟨items, _, ⟨⟨bytes, hencode⟩, hfd, hconfigured, hanswered, hbudget,
            hitems⟩, ⟨hbrought.1, hbrought.2, hbrought.3, hbrought.4, hbrought.5, hbrought.6,
            hbrought.7⟩, rfl⟩)
        | false =>
          have hstatus := (Page.call_budgeted hbudget bytes (w.note (.encoded m.input))).1
          rw [streamEnd]
          simp only [hgood, hstatus, Bool.not_true, Bool.false_eq_true, if_false]
          rw [Bool.and_eq_false_iff] at hadded
          rw [if_pos (by rcases hadded with h | h <;> simp [h])]
          refine .inr (.inl ⟨_, _, rfl, hgrown, fun h => ?_⟩)
          rcases hadded with hadded | hadded
          · rw [h.1] at hadded
            cases hadded
          · rw [h.2] at hadded
            cases hadded
      · have hstatus := Page.call_over hbudget bytes (w.note (.encoded m.input))
        have hbad : Status.ok overBudget = false := rfl
        rw [streamEnd]
        simp only [hgood, hstatus, hbad, Bool.not_true, Bool.false_eq_true, if_false, Bool.not_false,
          if_true]
        exact .inr (.inl ⟨_, _, rfl, hgrown, fun h => (by cases h.1)⟩)
    · rw [hsubmit]
      simp only [streamEnd, hunknown.not_ok, Bool.not_false, if_true]
      refine .inr (.inl ⟨_, _, rfl, hgrown, fun h => ?_⟩)
      rw [hunknown.not_ok] at h
      cases h.1
    · rw [hsubmit]
      exact .inl ⟨status, _, rfl, rfl⟩
  · obtain ⟨status, hsubmit⟩ := submit_unready (v := v) (m := m) hready bytes (w.note (.encoded m.input))
    rw [hsubmit]
    exact .inl ⟨status, _, rfl, rfl⟩

/-- A completion asks for another page, ends the stream or fails. -/
theorem completionEnd_cases (m : Method) (callParams : Json) (late : Bool) (retval : Int)
    (completion : Json) :
    (∃ cursor, completionEnd m callParams late retval completion =
        .inr (callParams.set "cursor" (.uint cursor)) ∧ m.automaticCursor = true ∧
        retval = streamContinue ∧ cursor? completion = some cursor ∧
        cursor? callParams ≠ some cursor ∧ late = false) ∨
      (completionEnd m callParams late retval completion = .inl {} ∧ retval = 0) ∨
      ∃ status, completionEnd m callParams late retval completion = .inl status ∧
        status.ok = false := by
  unfold completionEnd
  by_cases hcontinue : retval = streamContinue ∧ m.automaticCursor = true
  · rw [if_pos hcontinue]
    cases hcursor : cursor? completion with
    | none => exact .inr (.inr ⟨_, rfl, rfl⟩)
    | some cursor =>
      simp only
      by_cases hend : cursor? callParams = some cursor ∨ late = true
      · rw [if_pos hend]
        exact .inr (.inr ⟨_, rfl, rfl⟩)
      · rw [if_neg hend]
        rw [not_or, Bool.not_eq_true] at hend
        exact .inl ⟨cursor, rfl, hcontinue.2, hcontinue.1, rfl, hend.1, hend.2⟩
  · rw [if_neg hcontinue]
    by_cases hretval : retval ≠ 0
    · rw [if_pos hretval]
      exact .inr (.inr ⟨_, rfl, rfl⟩)
    · rw [if_neg hretval]
      exact .inr (.inl ⟨rfl, not_not.1 hretval⟩)

/-- **Pages that end with success have drained the stream.** -/
theorem pages_sound (hnative : ReportsFloats v.native) (hstream : m.stream = true) (b : Behaviour)
    (left : Nat) : ∀ (n : Nat) (callParams : Json) {w : Work}, w.spool.status.ok = true →
    ∃ e w', pages v b m left n callParams w = (e, w') ∧ Grown v.env w.spool w'.spool ∧
      ((∃ status, e = fail status ∧ w'.spool.status.ok = true) ∨
        ∃ status, e = .stream status ∧ (status.ok = true → w'.spool.status.ok = true →
          ∃ items, Drained v b m w.names left n callParams items ∧
            w'.spool = (w.spool.addAll v.env items).2)) := by
  induction left with
  | zero =>
    intro n callParams w _
    exact ⟨_, _, rfl, .refl _ _, .inr ⟨_, rfl, fun h => (by cases h)⟩⟩
  | succ left ih =>
    intro n callParams w hspool
    rcases page_cases hnative hstream b left n callParams hspool with
      ⟨status, w', heq, hsame⟩ | ⟨status, w', heq, hgrown, hbad⟩ | ⟨items, c, hpage, hc, heq⟩
    · refine ⟨_, _, heq, ?_, .inl ⟨status, rfl, ?_⟩⟩
      · rw [hsame]
        exact .refl _ _
      · rw [hsame]
        exact hspool
    · exact ⟨_, _, heq, hgrown, .inr ⟨status, rfl, fun h h' => absurd ⟨h, h'⟩ hbad⟩⟩
    · have hgrown : Grown v.env w.spool c.work.spool := ⟨items, hc.spool⟩
      rw [streamEnd_brought hc] at heq
      cases hexplicit : m.streamMsg.isSome with
      | false =>
        simp only [hexplicit, Bool.false_eq_true, if_false] at heq
        have himplicit : m.streamMsg = none := by simpa using hexplicit
        exact ⟨_, _, heq, hgrown, .inr ⟨{}, rfl, fun _ _ => ⟨items, .dump himplicit hpage,
          hc.spool⟩⟩⟩
      | true =>
        simp only [hexplicit, if_true] at heq
        cases hdecode : Decode v.cat v.native (symbols w.names) m.reply
            (lastReply v m ((b.pages n).heard m)) with
        | error status =>
          have hbad := reports_Decode hnative _ _ _ status hdecode
          simp only [hdecode] at heq
          refine ⟨_, _, heq, hgrown, .inr ⟨status, rfl, fun h => ?_⟩⟩
          rw [hbad] at h
          cases h
        | ok completion =>
          simp only [hdecode] at heq
          rcases completionEnd_cases m callParams (b.pages n).late
              (lastRetval v m ((b.pages n).heard m)) completion with
            ⟨cursor, hend, hautomatic, hretval, hcursor, hother, hlate⟩ | ⟨hend, hretval⟩ |
              ⟨status, hend, hbad⟩
          · rw [hend] at heq
            simp only at heq
            obtain ⟨e, w', hrest, hgrown', hcases⟩ := @ih (n + 1)
              (callParams.set "cursor" (.uint cursor)) (c.work.note (.decoded m.reply)) hc.added
            refine ⟨e, w', heq.trans hrest, hgrown.trans hgrown', ?_⟩
            rcases hcases with hfail | ⟨status, hstatus, hdrained⟩
            · exact .inl hfail
            · refine .inr ⟨status, hstatus, fun h h' => ?_⟩
              obtain ⟨items', hitems', hspool'⟩ := hdrained h h'
              refine ⟨items ++ items', .more hexplicit hautomatic hpage completion hdecode hretval
                cursor hcursor hother hlate ?_, ?_⟩
              · rwa [Work.note, hc.names] at hitems'
              · rw [hspool', Spool.addAll_append, ← hc.spool]
                rfl
          · rw [hend] at heq
            exact ⟨_, _, heq, hgrown, .inr ⟨{}, rfl, fun _ _ => ⟨items,
              .last hexplicit hpage completion hdecode hretval, hc.spool⟩⟩⟩
          · rw [hend] at heq
            refine ⟨_, _, heq, hgrown, .inr ⟨status, rfl, fun h => ?_⟩⟩
            rw [hbad] at h
            cases h

/-- A delivered page brings its details, where the spool takes them. -/
theorem Delivered.brought {b : Behaviour} {left n : Nat} {callParams : Json} {items : List Json}
    {w : Work} (h : Delivered v m w.names (b.pages n) callParams items)
    (hnative : ReportsFloats v.native) (hstream : m.stream = true)
    (hadded : (w.spool.addAll v.env items).2.status.ok = true) :
    ∃ c, Brought v m (b.pages n) w items c ∧
      pages v b m (left + 1) n callParams w =
        match streamEnd v m callParams (b.pages n).late {} c with
        | (.inl status, w) => (.stream status, w)
        | (.inr callParams, w) => pages v b m left (n + 1) callParams w := by
  obtain ⟨bytes, hencode⟩ := h.encodes
  have hiff := @brought_iff v m hnative (b.pages n) (w.note (.encoded m.input)) h.budgeted
    (Spool.ok_of_addAll hadded) bytes
  have hbrought := hiff.2 items h.details hadded
  refine ⟨_, ⟨hbrought.1, hbrought.2, hbrought.3, hbrought.4, hbrought.5, hbrought.6, hbrought.7⟩,
    ?_⟩
  rw [pages_stream hstream, hencode]
  simp only
  rcases submit_sent (v := v) (m := m) h.fd h.configured bytes (w.note (.encoded m.input)) with
    ⟨-, hsubmit⟩ | ⟨-, hnot, -⟩ | ⟨hnot, -⟩
  · rw [hsubmit]
  · exact absurd h.answered hnot
  · exact absurd ⟨h.answered.restored, h.answered.submitted⟩ hnot

/-- **A drained stream ends with success** where the spool takes its details. -/
theorem pages_complete (hnative : ReportsFloats v.native) (hstream : m.stream = true)
    {b : Behaviour} {left n : Nat} {callParams : Json} {items : List Json}
    (h : Drained v b m names left n callParams items) : ∀ {w : Work}, w.names = names →
      (w.spool.addAll v.env items).2.status.ok = true →
      ∃ w', pages v b m left n callParams w = (.stream {}, w') ∧
        w'.spool = (w.spool.addAll v.env items).2 := by
  induction h with
  | dump himplicit hpage =>
    intro w hnames hadded
    rw [← hnames] at hpage
    obtain ⟨c, hc, heq⟩ := hpage.brought hnative hstream hadded
    rw [streamEnd_brought hc] at heq
    simp only [himplicit, Option.isSome_none, Bool.false_eq_true, if_false] at heq
    exact ⟨_, heq, hc.spool⟩
  | last hexplicit hpage completion hcompletes hretval =>
    intro w hnames hadded
    rw [← hnames] at hpage hcompletes
    obtain ⟨c, hc, heq⟩ := hpage.brought hnative hstream hadded
    rw [Completion] at hcompletes
    rw [streamEnd_brought hc] at heq
    have hend : ∀ (callParams : Json) (late : Bool),
        completionEnd m callParams late 0 completion = .inl {} := by
      intro callParams late
      simp [completionEnd, streamContinue]
    simp only [hexplicit, hcompletes, hretval, hend, if_true] at heq
    exact ⟨_, heq, hc.spool⟩
  | more hexplicit hautomatic hpage completion hcompletes hretval cursor hcursor hother hlate _ ih =>
    intro w hnames hadded
    rw [← hnames] at hpage hcompletes
    rw [Spool.addAll_append] at hadded
    obtain ⟨c, hc, heq⟩ := hpage.brought hnative hstream (Spool.ok_of_addAll hadded)
    rw [Completion] at hcompletes
    rw [streamEnd_brought hc] at heq
    have hend : ∀ {callParams : Json}, cursor? callParams ≠ some cursor →
        completionEnd m callParams false streamContinue completion =
          .inr (callParams.set "cursor" (.uint cursor)) := by
      intro callParams hother
      simp [completionEnd, hautomatic, hcursor, hother]
    simp only [hexplicit, hcompletes, hretval, hlate, hend hother, if_true] at heq
    rw [← hc.spool] at hadded
    obtain ⟨w', hrest, hspool⟩ := @ih (c.work.note (.decoded m.reply)) (hc.names.trans hnames) hadded
    refine ⟨w', heq.trans hrest, ?_⟩
    rw [hspool, Spool.addAll_append, ← hc.spool]
    rfl

/-- A relation between two lists determines the second one if the relation of their elements
does. -/
theorem forall₂_functional {α β : Type} {R : α → β → Prop} (hR : ∀ a b b', R a b → R a b' → b = b')
    {as : List α} {bs : List β} (h : List.Forall₂ R as bs) : ∀ {bs' : List β},
      List.Forall₂ R as bs' → bs = bs' := by
  induction h with
  | nil =>
    intro bs' h'
    cases h'
    rfl
  | cons hab _ ih =>
    intro bs' h'
    cases h' with
    | cons hab' hrest => rw [hR _ _ _ hab hab', ih hrest]

/-- What VPP has brought determines the details. -/
theorem Delivered.functional {page : Page} {callParams : Json} {items items' : List Json}
    (h : Delivered v m names page callParams items)
    (h' : Delivered v m names page callParams items') : items = items' := by
  refine forall₂_functional (fun data detail detail' hd hd' => ?_) h.details h'.details
  rw [IsDetail] at hd hd'
  rw [hd] at hd'
  exact Except.ok.inj hd'

/-- A stream has one list of details. -/
theorem Drained.functional {b : Behaviour} {left n : Nat} {callParams : Json} {items : List Json}
    (h : Drained v b m names left n callParams items) : ∀ {items' : List Json},
      Drained v b m names left n callParams items' → items = items' := by
  induction h with
  | dump himplicit hpage =>
    intro items' h'
    cases h' with
    | dump _ hpage' => exact hpage.functional hpage'
    | last hexplicit _ _ _ _ =>
      rw [himplicit] at hexplicit
      cases hexplicit
    | more hexplicit _ _ _ _ _ _ _ _ _ _ =>
      rw [himplicit] at hexplicit
      cases hexplicit
  | last hexplicit hpage _ _ hretval =>
    intro items' h'
    cases h' with
    | dump himplicit _ =>
      rw [himplicit] at hexplicit
      cases hexplicit
    | last _ hpage' _ _ _ => exact hpage.functional hpage'
    | more _ _ _ _ _ hcontinue _ _ _ _ _ =>
      rw [hretval] at hcontinue
      cases hcontinue
  | more hexplicit _ hpage completion hcompletes hretval cursor hcursor _ _ _ ih =>
    intro items' h'
    cases h' with
    | dump himplicit _ =>
      rw [himplicit] at hexplicit
      cases hexplicit
    | last _ _ _ _ hzero =>
      rw [hretval] at hzero
      cases hzero
    | more _ _ hpage' completion' hcompletes' _ cursor' hcursor' _ _ hrest =>
      rw [Completion] at hcompletes hcompletes'
      rw [hcompletes] at hcompletes'
      obtain rfl := Except.ok.inj hcompletes'
      rw [hcursor] at hcursor'
      obtain rfl := Option.some.inj hcursor'
      rw [hpage.functional hpage', ih hrest]

end

end Vapi

end VppJson
