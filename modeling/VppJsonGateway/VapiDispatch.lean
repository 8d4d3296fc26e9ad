import VppJsonGateway.VapiNames

/-!
# What a call hears

The loop of `Dispatch` as the callbacks see it: which of them are made before the loop ends, whether
it ends because one of them has completed the call, and what they leave in the call.
-/

namespace VppJson

open Lib Schema

namespace Vapi

/-! ## The loop -/

section

variable {α σ : Type} {ends : α → Bool} {done : σ → Bool} {hear : σ → α → σ}

/-- The callbacks made before a dispatch loop ends, where some of them end it. -/
def heard (ends : α → Bool) : List (Turn α) → List α
  | [] => []
  | turn :: turns =>
    turn.arrivals ++
      if turn.rc = .failed then []
      else if turn.late then []
      else if turn.arrivals.any ends then []
      else heard ends turns

/-- A dispatch loop ends because of a callback, and without an error. -/
def completed (ends : α → Bool) : List (Turn α) → Bool
  | [] => false
  | turn :: turns =>
    if turn.rc = .failed then false
    else if turn.late then false
    else if turn.arrivals.any ends then true
    else completed ends turns

/-- The statuses of a loop of a mutation that did not complete. -/
def Interrupted (status : Status) : Prop :=
  status = ⟨"outcome_unknown", "VAPI request exceeded 30 seconds"⟩ ∨
    status = ⟨"outcome_unknown", "VAPI connection failed"⟩

/-- A call is done once an arrival has ended it. -/
theorem foldl_done (hdone : ∀ s a, done (hear s a) = (done s || ends a)) (arrivals : List α) :
    ∀ s : σ, done (arrivals.foldl hear s) = (done s || arrivals.any ends) := by
  induction arrivals with
  | nil => exact fun s => (Bool.or_false _).symm
  | cons a arrivals ih =>
    intro s
    rw [List.foldl_cons, ih, hdone, List.any_cons, Bool.or_assoc]

/-- A loop that is done at once stays where it is. -/
theorem dispatch_done {mutation : Bool} {s : σ} (h : done s = true) (turns : List (Turn α)) :
    dispatch done hear mutation s turns = ({}, s) := by
  cases turns with
  | nil => rw [dispatch, if_pos h]
  | cons turn turns => rw [dispatch, if_pos h]

/-- **A dispatch loop** makes the callbacks it hears, and ends with success where it completed. -/
theorem dispatch_heard (hdone : ∀ s a, done (hear s a) = (done s || ends a))
    (turns : List (Turn α)) : ∀ {s : σ}, done s = false →
      (dispatch done hear true s turns).2 = (heard ends turns).foldl hear s ∧
        (completed ends turns = true → (dispatch done hear true s turns).1 = {}) ∧
        (completed ends turns = false → Interrupted (dispatch done hear true s turns).1) := by
  induction turns with
  | nil =>
    intro s hs
    have hnot : ¬ done s = true := by simp [hs]
    rw [dispatch, if_neg hnot]
    exact ⟨rfl, fun h => (by cases h), fun _ => .inl rfl⟩
  | cons turn turns ih =>
    intro s hs
    have hnot : ¬ done s = true := by simp [hs]
    rw [dispatch, if_neg hnot, heard, completed]
    simp only
    by_cases hfailed : turn.rc = .failed
    · rw [if_pos hfailed, if_pos hfailed, if_pos hfailed, List.append_nil]
      exact ⟨rfl, fun h => (by cases h), fun _ => .inr rfl⟩
    rw [if_neg hfailed, if_neg hfailed, if_neg hfailed]
    by_cases hlate : turn.late = true
    · rw [if_pos hlate, if_pos hlate, if_pos hlate, List.append_nil]
      exact ⟨rfl, fun h => (by cases h), fun _ => .inl rfl⟩
    rw [if_neg hlate, if_neg hlate, if_neg hlate]
    have hturn := foldl_done hdone turn.arrivals s
    rw [hs, Bool.false_or] at hturn
    by_cases hends : turn.arrivals.any ends = true
    · rw [if_pos hends, if_pos hends, dispatch_done (hturn.trans hends), List.append_nil]
      exact ⟨rfl, fun _ => rfl, fun h => (by cases h)⟩
    · rw [if_neg hends, if_neg hends, List.foldl_append]
      exact ih (hturn.trans (by simpa using hends))

end

/-! ## Callbacks -/

section

variable (v : Backend) (m : Method)

/-- The type of the message a callback is for. -/
def messageType (a : Arrival) : Bytes :=
  if (m.streamMsg.isSome && a.details) = true then m.output else m.reply

/-- A callback hands its payload on as an item. -/
def brings (a : Arrival) : Bool := if m.streamMsg.isSome then a.details else m.stream

/-- A callback ends its dispatch loop. -/
def ends (a : Arrival) : Bool := !a.ok || (!(m.streamMsg.isSome && a.details) && a.last)

/-- The payload of a callback, or why it is not copied. -/
def payload (a : Arrival) : Option (Except Status Bytes) :=
  if a.ok = false then none
  else
    a.reply.map fun message => (callbackSize v.cat (messageType m a) message).map (message.take ·)

/-- The `retval` of a callback's message. -/
def retval? (a : Arrival) : Option Int :=
  if a.ok = false then none else a.reply.bind (nativeRetval v (messageType m a))

/-- What the payload of a callback does to the call. -/
def effect (c : Call) (a : Arrival) : Call :=
  match payload v m a with
  | none => c
  | some (.error status) => { c with status }
  | some (.ok data) =>
    if c.status.ok then if brings m a then item v m.output c data else { c with reply := data }
    else c

/-- The payload a reply is left with, behind one callback. -/
def replyNext (reply : Bytes) (a : Arrival) : Bytes :=
  match brings m a, payload v m a with
  | false, some (.ok data) => data
  | _, _ => reply

/-- The payload the last reply leaves. -/
def lastReply (arrivals : List Arrival) : Bytes := arrivals.foldl (replyNext v m) []

/-- The `retval` the last message with one leaves. -/
def lastRetval (arrivals : List Arrival) : Int :=
  arrivals.foldl (fun retval a => (retval? v m a).getD retval) 0

/-- The payload a callback hands on as an item. -/
def itemOf (a : Arrival) : Option Bytes :=
  match brings m a, payload v m a with
  | true, some (.ok data) => some data
  | _, _ => none

/-- Every payload is within the budget. -/
def Budgeted (arrivals : List Arrival) : Prop :=
  ∀ a ∈ arrivals, ∀ status, payload v m a ≠ some (.error status)

/-- The status of a payload over the budget. -/
def overBudget : Status := ⟨"payload_too_large", "Native reply exceeds 1 MiB"⟩

end

section

variable {v : Backend} {m : Method}

/-- The size of a reply is refused for one reason only. -/
theorem callbackSize_error {cat : Catalog} {type message : Bytes} {status : Status}
    (h : callbackSize cat type message = .error status) : status = overBudget := by
  unfold callbackSize at h
  simp only at h
  split_ifs at h
  split at h
  · split_ifs at h
    cases h
    rfl
  · cases h

/-- So is its payload. -/
theorem payload_error {a : Arrival} {status : Status} (h : payload v m a = some (.error status)) :
    status = overBudget := by
  unfold payload at h
  split_ifs at h
  cases hreply : a.reply with
  | none =>
    rw [hreply] at h
    cases h
  | some message =>
    rw [hreply, Option.map_some] at h
    cases hsize : callbackSize v.cat (messageType m a) message with
    | error status' =>
      rw [hsize] at h
      cases h
      exact callbackSize_error hsize
    | ok size =>
      rw [hsize] at h
      cases h

/-- The callbacks of a method are one callback with the type, the use and the end of its message. -/
theorem hear_callback (c : Call) (a : Arrival) :
    hear v m c a = callback v m.output (messageType m a) (brings m a)
      (!(m.streamMsg.isSome && a.details)) c a := by
  unfold hear messageType brings
  cases m.streamMsg.isSome with
  | true =>
    cases a.details with
    | true => rfl
    | false => rfl
  | false => rfl

/-- A change of a call's flags and `retval` is not seen by `call.item`. -/
theorem item_flags (output : Bytes) (c : Call) (data : Bytes) (done failed : Bool) (retval : Int) :
    item v output { c with done, failed, retval } data =
      { item v output c data with done, failed, retval } := by
  unfold item
  split_ifs
  · rfl
  · simp only
    split
    · rfl
    · rfl

/-- **A callback** sets its flags and `retval`, and its payload has its effect. -/
theorem hear_eq (c : Call) (a : Arrival) :
    hear v m c a = { effect v m c a with
      done := c.done || ends m a
      failed := c.failed || !a.ok
      retval := (retval? v m a).getD c.retval } := by
  have hsettle : ∀ (c' : Call) (last : Bool),
      (if last = true then { c' with done := true } else c') =
        { c' with done := c'.done || last } := by
    intro c' last
    cases last with
    | true => rw [if_pos rfl, Bool.or_true]
    | false => simp
  rw [hear_callback, callback]
  cases hok : a.ok with
  | false => simp [effect, payload, retval?, ends, hok]
  | true =>
    rw [if_neg (by decide), hsettle]
    cases hreply : a.reply with
    | none => simp [effect, payload, retval?, ends, hok, hreply]
    | some message =>
      cases hsize : callbackSize v.cat (messageType m a) message with
      | error status => simp [effect, payload, retval?, ends, hok, hreply, hsize, Except.map]
      | ok size =>
        cases hstatus : c.status.ok with
        | false => simp [effect, payload, retval?, ends, hok, hreply, hsize, hstatus, Except.map]
        | true =>
          cases hbrings : brings m a with
          | false => simp [effect, payload, retval?, ends, hok, hreply, hsize, hstatus, hbrings,
              Except.map]
          | true =>
            have hitem := item_flags (v := v) m.output c (message.take size) c.done c.failed
              ((nativeRetval v (messageType m a) message).getD c.retval)
            simp only [hsize, hstatus, if_true]
            rw [hitem]
            simp [effect, payload, retval?, ends, hok, hreply, hsize, hstatus, hbrings,
              Except.map]

/-- An arrival ends the call or leaves it open. -/
theorem hear_done (c : Call) (a : Arrival) : (hear v m c a).done = (c.done || ends m a) := by
  rw [hear_eq]

/-- `call.item` leaves the status of the callbacks and the reply. -/
theorem item_status (output : Bytes) (c : Call) (data : Bytes) :
    (item v output c data).status = c.status ∧ (item v output c data).reply = c.reply := by
  unfold item
  split_ifs
  · exact ⟨rfl, rfl⟩
  · simp only
    split
    · exact ⟨rfl, rfl⟩
    · exact ⟨rfl, rfl⟩

/-- A refusal becomes the status of the call. -/
theorem hear_status (c : Call) (a : Arrival) :
    (hear v m c a).status = match payload v m a with
      | some (.error status) => status
      | _ => c.status := by
  rw [hear_eq]
  simp only [effect]
  cases payload v m a with
  | none => rfl
  | some result =>
    cases result with
    | error status => rfl
    | ok data =>
      simp only
      split_ifs
      · exact (item_status _ _ _).1
      · rfl
      · rfl

/-- An arrival within the budget is taken up. -/
theorem hear_reply {c : Call} {a : Arrival} (hstatus : c.status = {}) :
    (hear v m c a).reply = replyNext v m c.reply a := by
  have hok : c.status.ok = true := by
    rw [hstatus]
    rfl
  rw [hear_eq]
  simp only [effect, replyNext, hok, if_true]
  cases payload v m a with
  | none => simp
  | some result =>
    cases result with
    | error status => simp
    | ok data =>
      cases brings m a with
      | true => simpa using (item_status _ _ _).2
      | false => rfl

/-- A callback that brings no item leaves the work. -/
theorem hear_work {c : Call} {a : Arrival} (h : brings m a = false) :
    (hear v m c a).work = c.work := by
  rw [hear_eq]
  simp only [effect, h, Bool.false_eq_true, if_false]
  cases payload v m a with
  | none => rfl
  | some result =>
    cases result with
    | error status => rfl
    | ok data =>
      simp only
      split_ifs
      · rfl
      · rfl

/-! ## All callbacks of a page -/

/-- The failures and the return value are those of all arrivals. -/
theorem foldl_flags (arrivals : List Arrival) : ∀ c : Call,
    (arrivals.foldl (hear v m) c).failed = (c.failed || arrivals.any fun a => !a.ok) ∧
      (arrivals.foldl (hear v m) c).retval =
        arrivals.foldl (fun retval a => (retval? v m a).getD retval) c.retval := by
  induction arrivals with
  | nil => exact fun c => ⟨(Bool.or_false _).symm, rfl⟩
  | cons a arrivals ih =>
    intro c
    obtain ⟨hfailed, hretval⟩ := ih (hear v m c a)
    rw [List.foldl_cons, hfailed, hretval, hear_eq, List.any_cons, Bool.or_assoc]
    exact ⟨rfl, rfl⟩

/-- Arrivals within the budget are all taken up. -/
theorem foldl_budgeted {arrivals : List Arrival} : ∀ {c : Call}, Budgeted v m arrivals →
    c.status = {} → (arrivals.foldl (hear v m) c).status = {} ∧
      (arrivals.foldl (hear v m) c).reply = arrivals.foldl (replyNext v m) c.reply := by
  induction arrivals with
  | nil => exact fun _ hstatus => ⟨hstatus, rfl⟩
  | cons a arrivals ih =>
    intro c hbudget hstatus
    have hnext : (hear v m c a).status = {} := by
      rw [hear_status]
      split
      · next status h => exact absurd h (hbudget a List.mem_cons_self status)
      · exact hstatus
    obtain ⟨hlast, hreply⟩ := ih (fun b hb => hbudget b (List.mem_cons_of_mem _ hb)) hnext
    rw [hear_reply hstatus] at hreply
    exact ⟨hlast, hreply⟩

/-- A status noted by a callback stays. -/
theorem foldl_spoiled {arrivals : List Arrival} : ∀ {c : Call}, c.status = overBudget →
    (arrivals.foldl (hear v m) c).status = overBudget := by
  induction arrivals with
  | nil => exact fun hstatus => hstatus
  | cons a arrivals ih =>
    intro c hstatus
    refine ih ?_
    rw [hear_status]
    split
    · next status h => exact payload_error h
    · exact hstatus

/-- An arrival beyond the budget fails the call, wherever it comes. -/
theorem foldl_over {arrivals : List Arrival} : ∀ {c : Call}, ¬ Budgeted v m arrivals →
    (arrivals.foldl (hear v m) c).status = overBudget := by
  induction arrivals with
  | nil => exact fun h => absurd (fun a ha => (by cases ha)) h
  | cons a arrivals ih =>
    intro c hover
    by_cases ha : ∃ status, payload v m a = some (.error status)
    · obtain ⟨status, ha⟩ := ha
      have hnext : (hear v m c a).status = overBudget := by
        rw [hear_status, ha]
        exact payload_error ha
      rw [List.foldl_cons]
      exact foldl_spoiled hnext
    · refine ih fun hrest => hover fun b hb status hb' => ?_
      rcases List.mem_cons.1 hb with rfl | hb
      · exact ha ⟨status, hb'⟩
      · exact hrest b hb status hb'

/-- The callbacks made over a page. -/
def Page.heard (m : Method) (page : Page) : List Arrival := Vapi.heard (ends m) page.turns

/-- The request of a page was sent, and every callback up to the last one was without error. -/
structure Page.Answered (m : Method) (page : Page) : Prop where
  restored : page.restored = true
  submitted : page.submitted = true
  completed : completed (ends m) page.turns = true
  ok : ∀ a ∈ page.heard m, a.ok = true

/-- The statuses of a mutation that may have run. -/
def Unknown (status : Status) : Prop :=
  Interrupted status ∨ status = ⟨"outcome_unknown", "VAPI reply failed"⟩ ∨
    status = ⟨"outcome_unknown", "Cannot restore VAPI socket after send"⟩ ∨
    status = ⟨"outcome_unknown", "VAPI submission failed; reconcile before retrying"⟩

/-- A page's call, from before its callbacks. -/
def Page.call (m : Method) (page : Page) (v : Backend) (bytes : Bytes) (w : Work) : Call :=
  (page.heard m).foldl (hear v m) { work := w.note (.sent bytes) }

/-- What the callbacks of a page leave in its call. -/
theorem Page.call_retval (page : Page) (bytes : Bytes) (w : Work) :
    (page.call m v bytes w).retval = lastRetval v m (page.heard m) := (foldl_flags (page.heard m) _).2

/-- A page within the budget ends well. -/
theorem Page.call_budgeted {page : Page} (h : Budgeted v m (page.heard m)) (bytes : Bytes)
    (w : Work) : (page.call m v bytes w).status = {} ∧
      (page.call m v bytes w).reply = lastReply v m (page.heard m) := foldl_budgeted h rfl

/-- A page beyond it fails. -/
theorem Page.call_over {page : Page} (h : ¬ Budgeted v m (page.heard m)) (bytes : Bytes)
    (w : Work) : (page.call m v bytes w).status = overBudget := foldl_over h

theorem any_not_ok {arrivals : List Arrival} :
    (arrivals.any fun a => !a.ok) = false ↔ ∀ a ∈ arrivals, a.ok = true := by
  simp

/-- **The submission of a page** that can be sent: it is answered, or it ends with an unknown
outcome, before or behind its callbacks. -/
theorem submit_sent {page : Page} (hfd : page.fd = true) (hconfigured : page.configured = true)
    (bytes : Bytes) (w : Work) :
    (page.Answered m ∧ submit v m page bytes w = .inr ({}, page.call m v bytes w)) ∨
      ((page.restored = true ∧ page.submitted = true) ∧ ¬ page.Answered m ∧
        ∃ status, Unknown status ∧ submit v m page bytes w = .inr (status, page.call m v bytes w)) ∨
      (¬ (page.restored = true ∧ page.submitted = true) ∧
        ∃ status, Unknown status ∧ submit v m page bytes w = .inl (status, w.note (.sent bytes))) := by
  unfold submit
  rw [hfd, hconfigured]
  simp only [Bool.not_true, Bool.false_eq_true, if_false]
  cases hrestored : page.restored with
  | false => exact .inr (.inr ⟨fun h => (by cases h.1), _, .inr (.inr (.inl rfl)), rfl⟩)
  | true =>
  cases hsubmitted : page.submitted with
  | false => exact .inr (.inr ⟨fun h => (by cases h.2), _, .inr (.inr (.inr rfl)), rfl⟩)
  | true =>
  have hstart : ({ work := w.note (.sent bytes) } : Call).done = false := rfl
  obtain ⟨hcall, hcompleted, hinterrupted⟩ :=
    dispatch_heard (hear_done (v := v) (m := m)) page.turns hstart
  have hfailed : (page.call m v bytes w).failed = (page.heard m).any fun a => !a.ok :=
    (foldl_flags (page.heard m) _).1
  simp only [Bool.not_true, Bool.false_eq_true, if_false]
  change _ = page.call m v bytes w at hcall
  generalize dispatch (·.done) (hear v m) true { work := w.note (.sent bytes) } page.turns = r
    at hcall hcompleted hinterrupted ⊢
  obtain ⟨status, c⟩ := r
  dsimp only at hcall hcompleted hinterrupted ⊢
  subst hcall
  cases hdone : completed (ends m) page.turns with
  | false =>
    have hnot : status.ok = false := by
      rcases hinterrupted hdone with rfl | rfl
      · rfl
      · rfl
    refine .inr (.inl ⟨⟨trivial, trivial⟩, ?_, status, .inl (hinterrupted hdone), ?_⟩)
    · intro h
      rw [h.completed] at hdone
      cases hdone
    · rw [hnot]
      rfl
  | true =>
    obtain rfl := hcompleted hdone
    cases hany : (page.heard m).any fun a => !a.ok with
    | false =>
      refine .inl ⟨⟨hrestored, hsubmitted, hdone, any_not_ok.1 hany⟩, ?_⟩
      rw [hfailed, hany]
      rfl
    | true =>
      refine .inr (.inl ⟨⟨trivial, trivial⟩, ?_, _, .inr (.inl rfl), ?_⟩)
      · intro h
        rw [any_not_ok.2 h.ok] at hany
        cases hany
      · rw [hfailed, hany]
        rfl

/-- A page whose socket is not ready is not sent. -/
theorem submit_unready {page : Page} (h : ¬ (page.fd = true ∧ page.configured = true))
    (bytes : Bytes) (w : Work) : ∃ status, submit v m page bytes w = .inl (status, w) := by
  unfold submit
  by_cases hfd : (!page.fd) = true
  · rw [if_pos hfd]
    exact ⟨_, rfl⟩
  · rw [if_neg hfd, if_pos]
    · exact ⟨_, rfl⟩
    · by_contra hconfigured
      exact h ⟨by simpa using hfd, by simpa using hconfigured⟩

theorem Unknown.not_ok {status : Status} (h : Unknown status) : status.ok = false := by
  rcases h with (rfl | rfl) | rfl | rfl | rfl
  · rfl
  · rfl
  · rfl
  · rfl
  · rfl

end

/-! ## The begin of a call -/

section

variable (v : Backend) (b : Behaviour) (request : Json) (m : Method)

/-- A type of the call has an interface, so it refreshes the names first. -/
def Method.named (cat : Catalog) : Bool :=
  hasInterface cat levels m.input || hasInterface cat levels m.output

/-- The names a call converts with. -/
def namesBefore (names : Names) : Names :=
  if m.named v.cat then (refreshNames b.names).2 else names

/-- A call gets as far as its pages. -/
structure Begins : Prop where
  supported : m.supported = true
  connected : b.connect.status.ok = true
  available : b.available (methodOf request) = true
  cursor : (m.automaticCursor && (paramsOf request).contains "cursor") = false
  refreshed : m.named v.cat = true → (refreshNames b.names).1.ok = true

end

section

variable {v : Backend} {b : Behaviour} {request : Json} {m : Method}

/-- Nothing was done, or the names were refreshed. -/
def Work.Fresh (w w' : Work) : Prop :=
  w'.spool = w.spool ∧ (w'.log = w.log ∨ w'.log = .refreshed :: w.log)

/-- **The begin of a call**: its pages, or an error behind at most a refresh of the names. -/
theorem call_cases (v : Backend) (b : Behaviour) (request : Json) (m : Method) (w : Work) :
    (Begins v b request m ∧ ∃ w', w.Fresh w' ∧ w'.names = namesBefore v b m w.names ∧
      call v b (methodOf request) (paramsOf request) m w =
        pages v b m 1024 0 (firstParams m (paramsOf request)) w') ∨
      (¬ Begins v b request m ∧ ∃ status w', w.Fresh w' ∧
        call v b (methodOf request) (paramsOf request) m w = (fail status, w')) := by
  have hsame : w.Fresh w := ⟨rfl, .inl rfl⟩
  unfold call
  by_cases hsupported : (!m.supported) = true
  · rw [if_pos hsupported]
    refine .inr ⟨fun h => ?_, _, _, hsame, rfl⟩
    rw [h.supported] at hsupported
    cases hsupported
  rw [if_neg hsupported]
  by_cases hconnected : (!b.connect.status.ok) = true
  · rw [if_pos hconnected]
    refine .inr ⟨fun h => ?_, _, _, hsame, rfl⟩
    rw [h.connected] at hconnected
    cases hconnected
  rw [if_neg hconnected]
  by_cases havailable : (!b.available (methodOf request)) = true
  · rw [if_pos havailable]
    refine .inr ⟨fun h => ?_, _, _, hsame, rfl⟩
    rw [h.available] at havailable
    cases havailable
  rw [if_neg havailable]
  by_cases hcursor : (m.automaticCursor && (paramsOf request).contains "cursor") = true
  · rw [if_pos hcursor]
    refine .inr ⟨fun h => ?_, _, _, hsame, rfl⟩
    rw [h.cursor] at hcursor
    cases hcursor
  rw [if_neg hcursor]
  simp only [Bool.not_eq_true, Bool.not_eq_false'] at hsupported hconnected havailable hcursor
  rw [← Method.named]
  cases hnamed : m.named v.cat with
  | false =>
    refine .inl ⟨⟨hsupported, hconnected, havailable, hcursor, fun h => ?_⟩, w, hsame, ?_, rfl⟩
    · rw [hnamed] at h
      cases h
    · rw [namesBefore, hnamed]
      rfl
  | true =>
    have hfresh : w.Fresh (w.refresh b.names).2 := ⟨rfl, .inr rfl⟩
    simp only [if_true]
    cases hrefresh : (w.refresh b.names).1.ok with
    | false =>
      refine .inr ⟨fun h => ?_, _, _, hfresh, rfl⟩
      have hok := h.refreshed hnamed
      rw [show (refreshNames b.names).1.ok = false from hrefresh] at hok
      cases hok
    | true =>
      refine .inl ⟨⟨hsupported, hconnected, havailable, hcursor, fun _ => hrefresh⟩, _, hfresh, ?_,
        rfl⟩
      rw [namesBefore, hnamed]
      rfl

end

end Vapi

end VppJson
