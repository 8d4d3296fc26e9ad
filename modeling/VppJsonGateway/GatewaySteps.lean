import VppJsonGateway.GatewayInvariant
import VppJsonGateway.Lib.JsonRead
import VppJsonGateway.ReplySize

/-!
# The programs of the gateway make effects only

One lemma per function of `ApiServer`: from a consistent state, whatever Redis, the file system and
the surroundings do, every step is one `Effect`, and the function ends in what its callers need.
-/

namespace VppJson

open Lib

namespace Gateway

/-- A program of a function of the gateway, from a state on. -/
abbrev Keeps (w : World) (a : Actor) {α : Type} (Q : α → Gateway → Prop)
    (p : Prog Gateway Chance α) (g : Gateway) : Prop :=
  p.Follows (Rests w) (Acts w a) (Consistent w) Q g

section

variable {w : World} {a : Actor} {g t : Gateway} {α β : Type}

/-! ## Steps -/

/-- An effect is an act, the connection and the owner key apart. -/
theorem Effect.acts {g' : Gateway} (h : Effect w g a g') : Acts w a g g' :=
  ⟨g', g'.connected, g'.owner, h, rfl⟩

theorem Acts.refl (g : Gateway) : Acts w a g g := (Effect.stay a).acts

/-- What is known about a state, kept while the main thread waits and while it changes nothing but
its connection. -/
structure Lasting (w : World) (P : Gateway → Prop) : Prop where
  rests : ∀ {g t}, P g → Rests w g t → P t
  link : ∀ {g}, P g → ∀ connected, P { g with connected }

/-- A step that reads. -/
theorem keeps_read {Q : α → Gateway → Prop} {f : Gateway → α}
    (h : ∀ t, Rests w g t → Consistent w t → Q (f t) t) : Keeps w a Q (.read f) g :=
  Prog.Follows.read Acts.refl h

/-- A step that reads, with what is known. -/
theorem keeps_look {P : Gateway → Prop} (hP : Lasting w P) (hg : P g) {f : Gateway → α} :
    Keeps w a (fun a t => P t ∧ Consistent w t ∧ a = f t) (.read f) g :=
  keeps_read fun _ ht hc => ⟨hP.rests hg ht, hc, rfl⟩

/-- A step that writes. -/
theorem keeps_modify {P : Gateway → Prop} (hP : Lasting w P) (hg : P g) {f : Gateway → Gateway}
    {Q : Unit → Gateway → Prop} (h : ∀ t, P t → Consistent w t → Effect w t a (f t) ∧ Q () (f t)) :
    Keeps w a Q (.modify f) g :=
  Prog.Follows.step fun t ht hc _ => ⟨(h t (hP.rests hg ht) hc).1.acts, (h t (hP.rests hg ht) hc).2⟩

/-- A Redis command: the effect may come without the answer, and the connection may be lost. -/
theorem keeps_command {P : Gateway → Prop} (hP : Lasting w P) (hg : P g)
    {f : Gateway → α × Gateway} {Q : Option α → Gateway → Prop}
    (h : ∀ t, P t → Consistent w t → ∃ h owner, Effect w t a h ∧ (f t).2 = { h with owner })
    (hsome : ∀ t, P t → Consistent w t → Q (some (f t).1) (f t).2)
    (hlost : ∀ t, P t → Consistent w t → Q none { (f t).2 with connected := false })
    (hfail : ∀ t, P t → Q none t) : Keeps w a Q (command f) g := by
  refine Prog.Follows.step fun t ht hc c => ?_
  have hPt := hP.rests hg ht
  obtain ⟨g₁, owner, heffect, heq⟩ := h t hPt hc
  have hclosed : Acts w a t { t with connected := false } := ⟨t, false, t.owner, .stay a, rfl⟩
  by_cases hlink : t.connected = false
  · simp only [if_pos hlink]
    exact ⟨Acts.refl t, hfail t hPt⟩
  simp only [if_neg hlink]
  cases c.wire with
  | ok =>
    refine ⟨?_, hsome t hPt hc⟩
    rw [heq]
    exact ⟨g₁, g₁.connected, owner, heffect, rfl⟩
  | lost =>
    refine ⟨?_, hlost t hPt hc⟩
    rw [heq]
    exact ⟨g₁, false, owner, heffect, rfl⟩
  | fail => exact ⟨hclosed, hfail _ (hP.link hPt false)⟩

/-- The clock does not run back. -/
theorem keeps_clock {P : Gateway → Prop} (hP : Lasting w P) (hg : P g) :
    Keeps w a (fun now t => P t ∧ now ≤ t.uploads.now) clock g :=
  keeps_read fun _ ht _ => ⟨hP.rests hg ht, le_rfl⟩

/-- A call of the transfer manager, with what is known besides. -/
theorem keeps_transfers {P : Gateway → Prop} (hP : Lasting w P)
    (hset : ∀ {g : Gateway} {u}, P g → u.now = g.uploads.now → P { g with uploads := u }) (hg : P g)
    {p : Prog Uploads Answer α} {Q : α → Prop}
    (hp : Uploads.Keeps w.env True (fun a _ => Q a) p g.uploads) :
    Keeps w a (fun a t => P t ∧ Q a) (transfers p) g := by
  refine Prog.Follows.lift (R := Uploads.Waits) (G := Uploads.Steps w.env True)
    (I := Uploads.Sound w.env) (Q := fun a _ => Q a) (P := P) ?_ ?_ ?_ ?_ ?_ ?_ ?_ hg hp
  · exact fun _ _ => rfl
  · exact fun h => (Rests.stable h).uploads
  · exact fun hc => hc.uploads
  · exact fun _ hstep => (Effect.transfer a hstep).acts
  · exact hP.rests
  · exact fun hPt hstep => hset hPt hstep.1
  · exact fun hPt hQ => ⟨hPt, hQ⟩

/-- Connecting changes nothing that lasts. -/
theorem keeps_connect {P : Gateway → Prop} (hP : Lasting w P) (hg : P g) :
    Keeps w a (fun _ t => P t) connect g := by
  refine Prog.Follows.step fun t ht hc c => ?_
  have hPt := hP.rests hg ht
  split
  · exact ⟨Acts.refl t, hPt⟩
  split
  · exact ⟨⟨t, true, t.owner, .stay a, rfl⟩, hP.link hPt true⟩
  · exact ⟨Acts.refl t, hPt⟩

/-- Only the owner key may change hands. -/
theorem keeps_ownNamespace {P : Gateway → Prop} (hP : Lasting w P)
    (hset : ∀ {g : Gateway} {owner}, P g → P { g with owner }) (hg : P g) :
    Keeps w a (fun _ t => P t) (ownNamespace w.toSite) g := by
  refine Prog.Follows.seq (Q := fun _ t => P t) ?_ ?_
  · refine keeps_command hP hg ?_ ?_ ?_ fun _ ht => ht
    rotate_left
    · intro t ht _
      cases t.owner with
      | none => exact hset ht
      | some owner => exact ht
    · intro t ht _
      refine hP.link ?_ false
      cases t.owner with
      | none => exact hset ht
      | some owner => exact ht
    intro t _ _
    cases hown : t.owner with
    | none => exact ⟨t, some w.toSite.owner, .stay a, rfl⟩
    | some owner => exact ⟨t, t.owner, .stay a, rfl⟩
  · intro reply t ht
    cases reply with
    | none => exact ht
    | some mine =>
      cases mine with
      | false => trivial
      | true => exact ht

/-! ## What lasts -/

theorem Lasting.and {P P' : Gateway → Prop} (h : Lasting w P) (h' : Lasting w P') :
    Lasting w (fun g => P g ∧ P' g) :=
  ⟨fun hg ht => ⟨h.rests hg.1 ht, h'.rests hg.2 ht⟩, fun hg b => ⟨h.link hg.1 b, h'.link hg.2 b⟩⟩

theorem lasting_true : Lasting w (fun _ => True) := ⟨fun _ _ => trivial, fun _ _ => trivial⟩

/-- What depends on the tables and the members of the process. -/
theorem lasting_of_stable {P : Gateway → Prop} (h : ∀ {g t}, P g → Stable g t → P t)
    (hlink : ∀ {g}, P g → ∀ connected, P { g with connected }) : Lasting w P :=
  ⟨fun hg ht => h hg (Rests.stable ht), hlink⟩

/-- Sessions are taken away by the main thread only. -/
theorem lasting_session (session : Session) : Lasting w (fun g => session ∈ g.sessions) :=
  lasting_of_stable (fun hg ht => ht.sessions ▸ hg) fun hg _ => hg

/-- So are rows. -/
theorem lasting_job (row : Job) : Lasting w (fun g => row ∈ g.jobs) :=
  lasting_of_stable (fun hg ht => ht.jobs ▸ hg) fun hg _ => hg

/-- Nobody else starts the worker. -/
theorem lasting_idle : Lasting w (fun g => g.future = none) :=
  lasting_of_stable (fun hg ht => (ht.idle hg).1) fun hg _ => hg

/-- What has happened has happened. -/
theorem lasting_log (e : Happening) : Lasting w (fun g => e ∈ g.log) := by
  refine lasting_of_stable (fun hg ht => ?_) fun hg _ => hg
  obtain ⟨new, hnew, -⟩ := ht.log
  rw [hnew]
  exact List.mem_append_right _ hg

/-- An entry that has been dealt with stays so while the history grows. -/
theorem Settled.mono {client sid : Bytes} {entry : Entry} (h : Settled w g client sid entry)
    (hjobs : ∀ j ∈ g.jobs, ∃ j' ∈ t.jobs, j'.sid = j.sid ∧ j'.id = j.id ∧ j'.body = j.body)
    (hlog : ∃ new, t.log = new ++ g.log) : Settled w t client sid entry := by
  rcases h with ⟨request, hparse, j, hj, his, hbody⟩ | ⟨newer, older, heq, hold, hans⟩
  · obtain ⟨j', hj', hsid, hid, hb⟩ := hjobs j hj
    exact .inl ⟨request, hparse, j', hj', ⟨hsid.trans his.1, hid.trans his.2⟩, hb.trans hbody⟩
  · obtain ⟨new, hnew⟩ := hlog
    refine .inr ⟨new ++ newer, older, by rw [hnew, heq, List.append_assoc], hold, ?_⟩
    rcases hans with ⟨frame, hframe, ha⟩ | ⟨request, target, hp, hr, hevent⟩
    · exact .inl ⟨frame, List.mem_append_right _ hframe, ha⟩
    · refine .inr ⟨request, target, hp, hr, ?_⟩
      exact hevent.imp (List.mem_append_right _) (List.mem_append_right _)

/-- A request that was dealt with stays so. -/
theorem lasting_settled (client sid : Bytes) (entry : Entry) :
    Lasting w (fun g => Settled w g client sid entry) := by
  refine lasting_of_stable (fun {g t} hg ht => ?_) fun {g} hg b => ?_
  · obtain ⟨new, hnew, -⟩ := ht.log
    refine hg.mono (fun j hj => ⟨j, ?_, rfl, rfl, rfl⟩) ⟨new, hnew⟩
    rw [ht.jobs]
    exact hj
  · exact hg.mono (fun j hj => ⟨j, hj, rfl, rfl, rfl⟩) ⟨[], rfl⟩

/-! ## Publishing -/

/-- A frame published or not; when it is reported, it is in the history. -/
theorem keeps_publish {P : Gateway → Prop} (hP : Lasting w P)
    (hlog : ∀ {g : Gateway} {redis e}, P g → P { g with redis, log := e :: g.log }) (hg : P g)
    {key : Key} {json : Bytes}
    (h : ∀ t, P t → Consistent w t → Effect w t a (publishScript key json t).2) :
    Keeps w a (fun ok t => P t ∧ (ok = true → ∃ older, t.log = .published key json :: older ∧
        ∃ s : Gateway, P s ∧ s.log = older))
      (publish key json) g := by
  have hafter : ∀ t, P t → P (publishScript key json t).2 := by
    intro t ht
    rcases publishScript_cases key json t with heq | heq
    · rw [heq]
      exact ht
    · rw [heq]
      exact hlog ht
  refine Prog.Follows.seq (Q := fun reply t => P t ∧ (reply = some true →
    ∃ older, t.log = .published key json :: older ∧ ∃ s : Gateway, P s ∧ s.log = older)) ?_ ?_
  · refine keeps_command hP hg ?_ ?_ ?_ ?_
    · exact fun t ht hc => ⟨_, _, h t ht hc, rfl⟩
    · intro t ht hc
      refine ⟨hafter t ht, fun hok => ?_⟩
      unfold publishScript at hok ⊢
      split at hok
      · cases hok
      next hfull =>
      rw [if_neg hfull]
      exact ⟨t.log, rfl, t, ht, rfl⟩
    · exact fun t ht hc => ⟨hP.link (hafter t ht) false, fun hok => by cases hok⟩
    · exact fun t ht => ⟨ht, fun hok => by cases hok⟩
  · intro reply t ht
    exact ⟨ht.1, fun hok => ht.2 (of_decide_eq_true hok)⟩

/-- The first entry of a stream of the clients was appended. -/
theorem keeps_readFirst {P : Gateway → Prop} (hP : Lasting w P) (hg : P g) {key : Key}
    (hkey : key.isInput = true) :
    Keeps w a (fun r t => P t ∧ ∀ e, r = some e → .appended key e ∈ t.log) (readFirst key) g := by
  refine Prog.Follows.seq (Q := fun reply t => P t ∧ ∀ e, reply = some (some e) →
    .appended key e ∈ t.log) ?_ ?_
  · refine keeps_command hP hg ?_ ?_ ?_ ?_
    · exact fun t _ _ => ⟨t, t.owner, .stay a, rfl⟩
    · intro t ht hc
      refine ⟨ht, fun e he => hc.noted hkey ?_⟩
      exact List.mem_of_mem_head? (Option.some.inj he)
    · exact fun t ht _ => ⟨hP.link ht false, fun e he => by cases he⟩
    · exact fun t ht => ⟨ht, fun e he => by cases he⟩
  · intro reply t ht
    refine ⟨ht.1, fun e he => ht.2 e ?_⟩
    cases reply with
    | none => cases he
    | some r => exact congrArg some he

/-! ## `Receive` -/

/-- What `Receive` knows: the session, and that the entry is one of its clients. -/
def Reads (session : Session) (entry : Entry) (g : Gateway) : Prop :=
  session ∈ g.sessions ∧ .appended (.requests session.client session.sid) entry ∈ g.log

/-- The entry that is being dealt with stays where it is. -/
theorem lasting_reads (session : Session) (entry : Entry) :
    Lasting w (Reads session entry) :=
  (lasting_session session).and (lasting_log _)

section

variable {session : Session} {entry : Entry}

/-- An entry is removed once it was dealt with. -/
theorem keeps_remove (hg : Reads session entry g ∧ Settled w g session.client session.sid entry) :
    Keeps w (.receive session.sid) (fun _ _ => True)
      (remove (.requests session.client session.sid) entry) g := by
  refine Prog.Follows.seq (Q := fun _ _ => True) ?_ fun _ _ _ => trivial
  exact keeps_command ((lasting_reads session entry).and (lasting_settled _ _ entry)) hg
    (fun t ht _ => ⟨_, _, .remove ht.1.2 ht.2, rfl⟩) (fun _ _ _ => trivial) (fun _ _ _ => trivial)
    fun _ _ => trivial

/-- An answer is published together with the removal of its entry. -/
theorem keeps_reply (hg : Reads session entry g) {frame : Json}
    (hframe : Answers w entry (direct frame)) :
    Keeps w (.receive session.sid) (fun _ _ => True)
      (reply (.requests session.client session.sid) (.responses session.client session.sid) entry
        frame) g := by
  refine Prog.Follows.seq (keeps_publish (lasting_reads session entry)
    (fun ht => ⟨ht.1, List.mem_cons_of_mem _ ht.2⟩) hg
    fun t ht _ => .reply ht.1 ht.2 hframe) ?_
  rintro ok t ⟨ht, hok⟩
  cases ok with
  | false => trivial
  | true =>
    obtain ⟨older, hlog, s, hs, rfl⟩ := hok rfl
    exact keeps_remove ⟨ht, .inr ⟨[_], s.log, hlog, hs.2,
      .inl ⟨_, List.mem_singleton_self _, hframe⟩⟩⟩

/-- A row found by its key. -/
theorem jobAt_eq_some {sid id : Bytes} {row : Job} (h : g.jobAt sid id = some row) :
    row ∈ g.jobs ∧ row.Is sid id :=
  ⟨List.mem_of_find?_eq_some h, by simpa using List.find?_some h⟩

theorem keeps_replay (hg : Reads session entry g) {request : Json}
    (hrequest : parseRequest w.env (body entry) = .ok request)
    (hmethod : methodOf request = utf8 "api.replay") :
    Keeps w (.receive session.sid) (fun status t => Reads session entry t ∧
        (status.ok = true → Settled w t session.client session.sid entry))
      (replay session.sid (paramsOf request)) g := by
  unfold replay
  split
  · next target htarget =>
    split_ifs with hbad
    · exact ⟨hg, fun h => by cases h⟩
    have hreplays : Replays request target := by
      rw [not_or, not_not, Bool.not_eq_false] at hbad
      exact ⟨hmethod, hbad.1, htarget, hbad.2⟩
    have hsettled : ∀ {t t' : Gateway} {e : Happening}, Reads session entry t →
        t'.log = e :: t.log → (e = .awaited session.sid target ∨ e = .rewound session.sid target) →
        Settled w t' session.client session.sid entry := by
      intro t t' e ht hlog he
      refine .inr ⟨[e], t.log, hlog, ht.2, .inr ⟨request, target, hrequest, hreplays, ?_⟩⟩
      rcases he with rfl | rfl
      · exact .inl (List.mem_singleton_self _)
      · exact .inr (List.mem_singleton_self _)
    refine Prog.Follows.seq (Q := fun found t => Reads session entry t ∧
      ∀ state, found = some state → if state = .done then
        ∃ row ∈ t.jobs, row.Is session.sid target ∧ row.state = .done
      else Settled w t session.client session.sid entry) ?_ ?_
    · refine Prog.Follows.step fun t ht hc _ => ?_
      have hPt := (lasting_reads session entry).rests hg ht
      cases hrow : t.jobAt session.sid target with
      | none => exact ⟨Acts.refl t, hPt, fun _ h => by cases h⟩
      | some row =>
        obtain ⟨hmem, his⟩ := jobAt_eq_some hrow
        by_cases hdone : row.state = .done
        · simp only [if_pos hdone]
          refine ⟨Acts.refl t, hPt, ?_⟩
          rintro _ ⟨⟩
          rw [if_pos hdone]
          exact ⟨row, hmem, his, hdone⟩
        · simp only [if_neg hdone]
          refine ⟨(Effect.await hmem his hdone).acts, ⟨hPt.1, List.mem_cons_of_mem _ hPt.2⟩, ?_⟩
          rintro _ ⟨⟩
          rw [if_neg hdone]
          exact hsettled hPt rfl (.inl rfl)
    · rintro found t ⟨ht, hfound⟩
      cases found with
      | none => exact ⟨ht, fun h => by cases h⟩
      | some state =>
        have hstate := hfound state rfl
        by_cases hdone : state = .done
        · rw [if_pos hdone] at hstate
          obtain ⟨row, hrow, his, hdone'⟩ := hstate
          simp only [if_pos hdone]
          refine Prog.Follows.seq (Q := fun _ t => Reads session entry t ∧
            Settled w t session.client session.sid entry) ?_ fun _ t' ht' => ⟨ht'.1, fun _ => ht'.2⟩
          refine keeps_modify ((lasting_reads session entry).and (lasting_job row)) ⟨ht, hrow⟩ ?_
          rintro t' ⟨ht', hrow'⟩ -
          exact ⟨.rewind hrow' his hdone', ⟨ht'.1, List.mem_cons_of_mem _ ht'.2⟩,
            hsettled ht' rfl (.inr rfl)⟩
        · rw [if_neg hdone] at hstate
          simp only [if_neg hdone]
          exact ⟨ht, fun _ => hstate⟩
  · exact ⟨hg, fun h => by cases h⟩

/-- What `ParseRequest` lets pass is a parsed object with a valid ID. -/
theorem parseRequest_eq_ok {env : Env} {text : Bytes} {limit : Nat} {request : Json}
    (h : parseRequest env text limit = .ok request) :
    Json.parse env.strtod text = some request ∧ isIdText (idOf request) = true := by
  unfold parseRequest at h
  split_ifs at h
  split at h
  · next m hm =>
    simp only at h
    split_ifs at h with hbad _ _
    cases h
    refine ⟨hm, ?_⟩
    simp only [Bool.or_eq_true, not_or, Bool.not_eq_true, Bool.not_eq_false'] at hbad
    have hid : (Json.get? "id" (Json.obj m)).any isId = true := by
      have := hbad.1.1.1
      simpa using this
    unfold idOf
    cases hget : Json.get? "id" (Json.obj m) with
    | none =>
      rw [hget] at hid
      cases hid
    | some v =>
      rw [hget] at hid
      cases v with
      | str id => exact hid
      | null | bool | int | uint | float | arr | obj => cases hid
  · cases h

/-- The ID of a request is a string, whichever kind its numbers have. -/
theorem idOf_norm (j : Json) : idOf j.norm = idOf j := by
  have hstr : ∀ v : Json, v.norm.str? = v.str? := by
    intro v
    cases v with
    | int i =>
      rw [Json.norm]
      split <;> rfl
    | null | bool | uint | float | str | arr | obj => rfl
  rw [idOf, idOf, Json.get?_norm]
  cases j.get? "id" with
  | none => rfl
  | some v => exact congrArg (Option.getD · []) (hstr v)

/-- A journaled request names the same ID when it is read again. -/
theorem idOf_journaled {env : Env} (henv : env.Rereads) {text : Bytes} {request request' : Json}
    (hrequest : Json.parse env.strtod text = some request)
    (hread : Json.parse env.strtod request.dump = some request') : idOf request' = idOf request := by
  have hgood := Json.good_of_parse henv hrequest
  rw [Json.parse_dump hgood] at hread
  rw [← Option.some.inj hread, idOf_norm]

/-- Below the quota the counts hold until the row is inserted. -/
theorem keeps_overQuota {P : Gateway → Prop} (hP : Lasting w P) (hg : P g) {sid text : Bytes} :
    Keeps w a (fun full t => P t ∧ (full = false →
        (t.jobsOf sid).length < Limits.jobsPerSession ∧
          t.retained + text.length ≤ 16 * 1024 * 1024))
      (overQuota sid text) g := by
  have hcount : ∀ n, Lasting w (fun t : Gateway => (t.jobsOf sid).length = n) := fun n =>
    lasting_of_stable (fun {g t} hg ht => by rw [jobsOf, ht.jobs]; exact hg) fun hg _ => hg
  refine Prog.Follows.seq (keeps_look hP hg) ?_
  rintro n t ⟨ht, -, rfl⟩
  split
  · exact ⟨ht, fun h => by cases h⟩
  next hlt =>
  refine Prog.Follows.seq (keeps_look (hP.and (hcount _)) ⟨ht, rfl⟩) ?_
  rintro kept t' ⟨⟨ht', hn⟩, -, rfl⟩
  refine ⟨ht', fun h => ⟨?_, ?_⟩⟩
  · rw [hn]
    exact not_le.1 hlt
  · exact not_lt.1 (of_decide_eq_false h)

/-- A row is inserted where the bounds that were checked still hold. -/
theorem keeps_insertJob {P : Gateway → Prop} (hP : Lasting w P) (hg : P g) {job : Job}
    (h : ∀ t, P t → Consistent w t → (∀ j ∈ t.jobs, ¬ j.Is job.sid job.id) →
      (∃ s ∈ t.sessions, s.sid = job.sid) →
      Effect w t a { t with jobs := t.jobs ++ [job], log := .inserted job.sid job.id :: t.log })
    {Q : Gateway → Prop}
    (hQ : ∀ t, P t → Q { t with jobs := t.jobs ++ [job], log := .inserted job.sid job.id :: t.log }) :
    Keeps w a (fun _ t => Q t) (insertJob job) g := by
  refine Prog.Follows.seq (Q := fun ok t => ok = true → Q t) ?_ ?_
  · refine Prog.Follows.step fun t ht hc _ => ?_
    have hPt := hP.rests hg ht
    split
    · exact ⟨Acts.refl t, fun h => by cases h⟩
    next hfree =>
    rw [Bool.or_eq_true, not_or, Bool.not_eq_true, List.any_eq_false, Bool.not_eq_true',
      Bool.not_eq_false, List.any_eq_true] at hfree
    obtain ⟨hnone, s, hs, hsid⟩ := hfree
    refine ⟨(h t hPt hc (fun j hj his => hnone j hj (decide_eq_true his))
      ⟨s, hs, of_decide_eq_true hsid⟩).acts, fun _ => hQ t hPt⟩
  · intro ok t hok
    cases ok with
    | false => trivial
    | true => exact hok rfl

/-- What `Receive` ends with when it has journaled a request, or has refused to. -/
theorem keeps_journal (hg : Reads session entry g) {request : Json}
    (hrequest : parseRequest w.env (body entry) = .ok request) :
    Keeps w (.receive session.sid) (fun status t => Reads session entry t ∧
        (status.ok = true → Settled w t session.client session.sid entry))
      (journal w.toSite session.sid request) g := by
  obtain ⟨hparse, hid⟩ := parseRequest_eq_ok hrequest
  refine Prog.Follows.seq (keeps_look (lasting_reads session entry) hg) ?_
  rintro found t ⟨ht, -, hfound⟩
  cases found with
  | some row =>
    obtain ⟨hrow, his⟩ := jobAt_eq_some hfound.symm
    refine ⟨ht, fun hok => .inl ⟨request, hrequest, row, hrow, his, ?_⟩⟩
    by_contra hbody
    rw [if_pos hbody] at hok
    cases hok
  | none =>
    dsimp only
    split_ifs with hmethod
    · exact keeps_replay ht hrequest hmethod
    refine Prog.Follows.seq (keeps_overQuota (lasting_reads session entry) ht) ?_
    rintro full t ⟨ht, hroom⟩
    cases full with
    | true => exact ⟨ht, fun h => by cases h⟩
    | false =>
      obtain ⟨hcount, hretained⟩ := hroom rfl
      have hlasting := (lasting_reads (w := w) session entry).and
        (lasting_of_stable (P := fun t : Gateway =>
          (t.jobsOf session.sid).length < Limits.jobsPerSession ∧
            t.retained + request.dump.length ≤ 16 * 1024 * 1024)
          (fun {g t} hg ht => by rw [jobsOf, retained, ht.jobs]; exact hg) fun hg _ => hg)
      refine Prog.Follows.seq (keeps_clock hlasting ⟨ht, hcount, hretained⟩) ?_
      rintro now t ⟨ht, -⟩
      refine Prog.Follows.seq (keeps_insertJob hlasting ht ?_ (Q := fun t =>
        Reads session entry t ∧ Settled w t session.client session.sid entry) ?_) ?_
      · intro t ht hc hfree hsession
        exact .enqueue hfree hsession hid
          (fun henv _ hread => idOf_journaled henv hparse hread) ⟨request, rfl⟩ rfl ⟨rfl, rfl, rfl⟩ ht.2.1 ht.2.2
      · intro t ht
        refine ⟨⟨ht.1.1, List.mem_cons_of_mem _ ht.1.2⟩, .inl ⟨request, hrequest, ?_⟩⟩
        exact ⟨_, List.mem_append_right _ (List.mem_singleton_self _), ⟨rfl, rfl⟩, rfl⟩
      · exact fun _ t ht => ⟨ht.1, fun _ => ht.2⟩

/-- `Receive` of a session there is. -/
theorem keeps_receive (hg : session ∈ g.sessions) (hsid : Utf8.Valid session.sid) :
    Keeps w (.receive session.sid) (fun _ _ => True) (receive w.toSite session) g := by
  refine Prog.Follows.seq (keeps_readFirst (lasting_session session) hg rfl) ?_
  rintro first t ⟨ht, hfirst⟩
  cases first with
  | none => trivial
  | some entry =>
    have hreads : Reads session entry t := ⟨ht, hfirst entry rfl⟩
    refine Prog.Follows.seq (Q := fun _ t => Reads session entry t) ?_ ?_
    · exact keeps_command (lasting_reads session entry) hreads
        (fun t _ _ => ⟨t, t.owner, .stay _, rfl⟩) (fun _ ht _ => ht) (fun _ ht _ => ht)
        fun _ ht => ht
    · intro _ t ht
      cases hrequest : parseRequest w.env (body entry) with
      | error status =>
        refine keeps_reply ht ?_
        simp only [Answers, hrequest]
      | ok request =>
        dsimp only
        split_ifs with hchunk
        · refine Prog.Follows.seq (keeps_transfers (lasting_reads session entry)
            (fun h _ => h) ht (Uploads.keeps_handle hsid)) ?_
          rintro outcome t ⟨ht, -⟩
          refine keeps_reply ht ?_
          simp only [Answers, hrequest]
          cases outcome with
          | error status => exact .inl ⟨status, rfl⟩
          | ok value => exact .inr ⟨hchunk, value, rfl⟩
        · refine Prog.Follows.seq (keeps_journal ht hrequest) ?_
          rintro status t ⟨ht, hsettled⟩
          split_ifs with hok
          · exact keeps_remove ⟨ht, hsettled hok⟩
          · refine keeps_reply ht ?_
            simp only [Answers, hrequest]
            exact .inl ⟨status, rfl⟩


end

end

end Gateway

end VppJson
