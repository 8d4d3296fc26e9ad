import VppJsonGateway.StreamOrder

/-!
# No request is lost

What a client appends to the request stream of its session stays there until `Receive` has dealt
with it: the journal holds it, it was answered, or it was a replay that was carried out or had to
wait (`Settled`). Only `Cleanup` takes entries away unread, together with the session they belong
to; when it is cut off in between, the session is left without them for a while.
-/

namespace VppJson.Gateway

open Lib

/-! ## Entries and their IDs -/

/-- The IDs in the history are those the streams have given, each once. -/
def Dated (g : Gateway) : Prop :=
  ∀ key e, .appended key e ∈ g.log → e.id ≤ (g.redis key).last ∧
    ∀ e', .appended key e' ∈ g.log → e'.id = e.id → e' = e

section

variable {w : World} {g t : Gateway}

theorem Dated.mono (h : Dated g) (hlast : ∀ key, (g.redis key).last ≤ (t.redis key).last)
    (hlog : ∀ key e, .appended key e ∈ t.log → .appended key e ∈ g.log) : Dated t := by
  intro key e he
  obtain ⟨hid, hone⟩ := h key e (hlog key e he)
  exact ⟨hid.trans (hlast key), fun e' he' => hone e' (hlog key e' he')⟩

/-- The streams and the appended entries are left alone. -/
theorem Dated.same (h : Dated g) (hredis : t.redis = g.redis)
    (hlog : t.log = g.log ∨ ∃ e, t.log = e :: g.log ∧ ∀ key entry, e ≠ .appended key entry) :
    Dated t := by
  refine h.mono (fun key => by rw [hredis]) fun key entry he => ?_
  rcases hlog with hlog | ⟨e, hlog, hne⟩
  · rwa [hlog] at he
  · rw [hlog] at he
    exact (List.mem_cons.1 he).resolve_left fun heq => hne key entry heq.symm

/-- One stream loses entries, or gains one. -/
theorem Dated.setStream (h : Dated g) {key : Key} {s : Stream} {log : List Happening}
    (hlast : (g.redis key).last ≤ s.last)
    (hlog : ∀ key e, .appended key e ∈ log → .appended key e ∈ g.log) :
    Dated { g.setStream key s with log } := by
  refine h.mono (fun key' => ?_) hlog
  dsimp only [Gateway.setStream]
  by_cases hkey : key' = key
  · subst hkey
    rwa [Function.update_self]
  · rw [Function.update_of_ne hkey]

/-- Replies are no entries of the clients. -/
theorem Dated.publish (h : Dated g) (key : Key) (json : Bytes) :
    Dated (publishScript key json g).2 := by
  unfold publishScript
  split
  · exact h
  · refine h.setStream (Nat.le_succ _) fun key' e he => ?_
    exact (List.mem_cons.1 he).resolve_left fun heq => by cases heq

/-- An entry gets an ID above all before it. -/
theorem Dated.append (h : Dated g) (key : Key) (fields : List (Bytes × Bytes)) :
    Dated { g.setStream key ((g.redis key).add fields) with
      log := .appended key ((g.redis key).next fields) :: g.log } := by
  intro key' e he
  dsimp only [Gateway.setStream] at he ⊢
  by_cases hkey : key' = key
  · subst hkey
    rw [Function.update_self]
    have hnew : ∀ e', .appended key' e' ∈ g.log → e'.id < (g.redis key').last + 1 := fun e' he' =>
      Nat.lt_succ_of_le (h key' e' he').1
    rcases List.mem_cons.1 he with heq | hold
    · cases heq
      refine ⟨le_rfl, fun e' he' hid => ?_⟩
      rcases List.mem_cons.1 he' with heq' | hold'
      · cases heq'
        rfl
      · exact absurd hid (hnew e' hold').ne
    · refine ⟨(hnew e hold).le, fun e' he' hid => ?_⟩
      rcases List.mem_cons.1 he' with heq' | hold'
      · cases heq'
        exact absurd hid.symm (hnew e hold).ne
      · exact (h key' e hold).2 e' hold' hid
  · rw [Function.update_of_ne hkey]
    have hold : ∀ e', .appended key' e' ∈ .appended key ((g.redis key).next fields) :: g.log →
        .appended key' e' ∈ g.log := fun e' he' =>
      (List.mem_cons.1 he').resolve_left fun heq => by
        cases heq
        exact hkey rfl
    exact ⟨(h key' e (hold e he)).1, fun e' he' => (h key' e (hold e he)).2 e' (hold e' he')⟩

/-- Only clients append, and Redis gives the IDs. -/
theorem Dated.outside (h : Dated g) (ht : Outside w g t) : Dated t := by
  cases ht with
  | append hkey fields => exact h.append _ fields
  | trim hsub => exact h.setStream le_rfl fun _ _ he => he
  | tick | own | scribble | finish => exact h.same rfl (.inl rfl)

/-- The main thread gives no IDs to what clients append. -/
theorem Dated.effect {a : Actor} (h : Dated g) (heffect : Effect w g a t) : Dated t := by
  cases heffect with
  | discard entry => exact h.setStream le_rfl fun _ _ he => he
  | remove => exact h.setStream le_rfl fun _ _ he => he
  | welcome => exact h.publish _ _
  | reply => exact h.publish _ _
  | line => exact h.publish _ _
  | @drop session =>
    refine h.mono (fun key => ?_) fun key e he => ?_
    · rw [dropStreams_redis]
      split
      · exact le_rfl
      · exact le_rfl
    · exact (List.mem_cons.1 he).resolve_left fun heq => by cases heq
  | enqueue | await | rewind | start | renew | hand | submit =>
    exact h.same rfl (.inr ⟨_, rfl, fun _ _ heq => by cases heq⟩)
  | stay | enter | transfer | collect | release | write | markDone | recovered | advance | unlink
    | expire | swept => exact h.same rfl (.inl rfl)

end

/-! ## An entry of a session -/

section

variable (w : World) (client sid : Bytes) (e : Entry)

/-- The session is in the journal. -/
def Lives (g : Gateway) : Prop := ∃ s ∈ g.sessions, s.client = client ∧ s.sid = sid

/-- The streams of the session were deleted after the entry was appended. -/
def Dropped (log : List Happening) : Prop :=
  ∃ newer older, log = newer ++ older ∧ .appended (.requests client sid) e ∈ older ∧
    .dropped sid ∈ newer

/-- An entry of a request stream is not lost: it is still there, it has been dealt with, or
`Cleanup` has deleted the streams of the session. -/
structure Kept (g : Gateway) : Prop where
  noted : .appended (.requests client sid) e ∈ g.log
  known : e ∈ (g.redis (.requests client sid)).entries ∨ Settled w g client sid e ∨
    Dropped client sid e g.log

end

section

variable {w : World} {g t : Gateway} {client sid : Bytes} {e : Entry}

/-- What was deleted stays deleted. -/
theorem Dropped.mono {log new : List Happening} (h : Dropped client sid e log) :
    Dropped client sid e (new ++ log) := by
  obtain ⟨newer, older, heq, hold, hdropped⟩ := h
  exact ⟨new ++ newer, older, by rw [heq, List.append_assoc], hold,
    List.mem_append_right _ hdropped⟩

/-- The entry stays where it is, and the journal and the history grow. -/
theorem Kept.mono (h : Kept w client sid e g)
    (hentries : e ∈ (g.redis (.requests client sid)).entries →
      e ∈ (t.redis (.requests client sid)).entries)
    (hjobs : ∀ j ∈ g.jobs, ∃ j' ∈ t.jobs, j'.sid = j.sid ∧ j'.id = j.id ∧ j'.body = j.body)
    (hlog : ∃ new, t.log = new ++ g.log) : Kept w client sid e t := by
  obtain ⟨new, hnew⟩ := hlog
  refine ⟨by rw [hnew]; exact List.mem_append_right _ h.noted, ?_⟩
  rcases h.known with hentry | hsettled | hdropped
  · exact .inl (hentries hentry)
  · exact .inr (.inl (hsettled.mono hjobs ⟨new, hnew⟩))
  · rw [hnew]
    exact .inr (.inr hdropped.mono)

/-- Nothing happens to the stream or to the journal. -/
theorem Kept.same (h : Kept w client sid e g)
    (hredis : t.redis (.requests client sid) = g.redis (.requests client sid))
    (hjobs : ∀ j ∈ g.jobs, ∃ j' ∈ t.jobs, j'.sid = j.sid ∧ j'.id = j.id ∧ j'.body = j.body)
    (hlog : ∃ new, t.log = new ++ g.log) : Kept w client sid e t :=
  h.mono (fun he => by rwa [hredis]) hjobs hlog

/-- Rows that are left alone are there. -/
theorem jobs_same (h : t.jobs = g.jobs) :
    ∀ j ∈ g.jobs, ∃ j' ∈ t.jobs, j'.sid = j.sid ∧ j'.id = j.id ∧ j'.body = j.body :=
  fun j hj => ⟨j, h.symm ▸ hj, rfl, rfl, rfl⟩

/-- An update of a job that leaves its key and its text. -/
theorem jobs_update {sid' id : Bytes} {f : Job → Job}
    (hf : ∀ j, (f j).sid = j.sid ∧ (f j).id = j.id ∧ (f j).body = j.body) :
    ∀ j ∈ g.jobs, ∃ j' ∈ (g.updateJob sid' id f).jobs,
      j'.sid = j.sid ∧ j'.id = j.id ∧ j'.body = j.body := by
  intro j hj
  refine ⟨_, mem_updateJob_of_mem hj, ?_⟩
  split_ifs
  · exact hf j
  · exact ⟨rfl, rfl, rfl⟩

/-- Replies go to other streams. -/
theorem Kept.publish (h : Kept w client sid e g) {key : Key} (hkey : key.isInput = false)
    (json : Bytes) : Kept w client sid e (publishScript key json g).2 := by
  rcases publishScript_cases key json g with heq | heq
  · rwa [heq]
  · rw [heq]
    refine h.same ?_ (jobs_same rfl) ⟨[_], rfl⟩
    refine Function.update_of_ne (fun he => ?_) ..
    rw [← he] at hkey
    cases hkey

/-- Other parties take nothing from the request stream of a live session. -/
theorem Kept.outside (h : Kept w client sid e g) (hlossy : ¬ w.lossy) (hlives : Lives client sid g)
    (ht : Outside w g t) : Kept w client sid e t := by
  cases ht with
  | @append key hkey fields =>
    refine h.mono (fun he => ?_) (jobs_same rfl) ⟨[_], rfl⟩
    dsimp only [Gateway.setStream]
    by_cases hkey' : .requests client sid = key
    · subst hkey'
      rw [Function.update_self]
      exact Stream.mem_add.2 (.inl he)
    · rwa [Function.update_of_ne hkey']
  | @trim key entries hsub hkept =>
    obtain ⟨s, hs, rfl, rfl⟩ := hlives
    refine h.same ?_ (jobs_same rfl) ⟨[], rfl⟩
    exact Function.update_of_ne (fun he => (hkept.resolve_left hlossy) s hs he.symm) ..
  | tick | own | scribble | finish => exact h.same rfl (jobs_same rfl) ⟨[], rfl⟩

/-- The main thread takes an entry only once it has been dealt with. -/
theorem Kept.effect {a : Actor} (h : Kept w client sid e g) (hd : Dated g)
    (hlives : Lives client sid g) (hlives' : Lives client sid t) (heffect : Effect w g a t) :
    Kept w client sid e t := by
  cases heffect with
  | discard entry =>
    refine h.same ?_ (jobs_same rfl) ⟨[], rfl⟩
    dsimp only [Gateway.setStream]
    rw [Function.update_of_ne (fun he => by cases he)]
  | welcome => exact h.publish rfl _
  | reply => exact h.publish rfl _
  | line => exact h.publish rfl _
  | @remove client' sid' entry hentry hsettled =>
    by_cases hkey : Key.requests client sid = .requests client' sid'
    · cases hkey
      by_cases hid : entry.id = e.id
      · obtain rfl := (hd _ _ h.noted).2 entry hentry hid
        exact ⟨h.noted, .inr (.inl (hsettled.mono (jobs_same rfl) ⟨[], rfl⟩))⟩
      · refine h.mono (fun he => ?_) (jobs_same rfl) ⟨[], rfl⟩
        dsimp only [Gateway.setStream]
        rw [Function.update_self]
        exact Stream.mem_delete.2 ⟨he, fun h' => hid h'.symm⟩
    · exact h.same (Function.update_of_ne hkey ..) (jobs_same rfl) ⟨[], rfl⟩
  | enqueue =>
    exact h.same rfl (fun j hj => ⟨j, List.mem_append_left _ hj, rfl, rfl, rfl⟩) ⟨[_], rfl⟩
  | await | renew | hand | submit => exact h.same rfl (jobs_same rfl) ⟨[_], rfl⟩
  | rewind => exact h.same rfl (jobs_update fun _ => ⟨rfl, rfl, rfl⟩) ⟨[_], rfl⟩
  | start => exact h.same rfl (jobs_update fun _ => ⟨rfl, rfl, rfl⟩) ⟨[_], rfl⟩
  | markDone => exact h.same rfl (jobs_update fun _ => ⟨rfl, rfl, rfl⟩) ⟨[], rfl⟩
  | advance => exact h.same rfl (jobs_update fun _ => ⟨rfl, rfl, rfl⟩) ⟨[], rfl⟩
  | @drop session hsession =>
    by_cases hsid : session.sid = sid
    · refine ⟨List.mem_cons_of_mem _ h.noted, .inr (.inr ?_)⟩
      exact ⟨[.dropped session.sid], g.log, rfl, h.noted, by rw [hsid]; exact List.mem_cons_self⟩
    · refine h.same ?_ (jobs_same rfl) ⟨[_], rfl⟩
      rw [dropStreams_redis, if_neg]
      rintro (he | he)
      · cases he
        exact hsid rfl
      · cases he
  | @expire session hsession =>
    have hne : session.sid ≠ sid := by
      intro hsid
      obtain ⟨s, hs, -, hs'⟩ := hlives'
      have := (List.mem_filter.1 hs).2
      rw [decide_eq_true_eq] at this
      exact this (hs'.trans hsid.symm)
    refine ⟨h.noted, ?_⟩
    rcases h.known with hentry | hsettled | hdropped
    · exact .inl hentry
    · refine .inr (.inl ?_)
      rcases hsettled with ⟨request, hparse, j, hj, his, hbody⟩ | hanswered
      · refine .inl ⟨request, hparse, j, List.mem_filter.2 ⟨hj, ?_⟩, his, hbody⟩
        rw [decide_eq_true_eq, his.1]
        exact hne.symm
      · exact .inr hanswered
    · exact .inr (.inr hdropped)
  | stay | enter | transfer | collect | release | write | recovered | unlink | swept =>
    exact h.same rfl (jobs_same rfl) ⟨[], rfl⟩

/-- A client appends an entry. -/
def appendEntry (key : Key) (fields : List (Bytes × Bytes)) (g : Gateway) : Gateway :=
  { g.setStream key ((g.redis key).add fields) with
    log := .appended key ((g.redis key).next fields) :: g.log }

/-- **No request is lost.** In every later state in which the session still exists, what was appended
to its request stream is there, or has been dealt with, unless `Cleanup` has deleted the streams of
the session meanwhile. -/
theorem request_kept {free : Prop} (hlossy : ¬ w.lossy)
    {x z : Gateway × Option (Prog Gateway Chance Unit)} (hx : (machine w free).Reachable x)
    (hlives : Lives client sid x.1) (fields : List (Bytes × Bytes))
    (hrun : Relation.ReflTransGen (fun a b => (machine w free).Step a b ∧ Lives client sid b.1)
      (appendEntry (.requests client sid) fields x.1, x.2) z) :
    (x.1.redis (.requests client sid)).next fields ∈ (z.1.redis (.requests client sid)).entries ∨
      Settled w z.1 client sid ((x.1.redis (.requests client sid)).next fields) ∨
      Dropped client sid ((x.1.redis (.requests client sid)).next fields) z.1.log := by
  set e := (x.1.redis (.requests client sid)).next fields with he
  have hsound := machine_soundIf w free
  obtain ⟨hx, hdated⟩ := hsound.reachable (J := Dated)
    (by
      rintro g ⟨now, owner, -, -, rfl⟩ key e' he'
      cases he')
    (fun _ h ht => h.outside ht)
    (by
      rintro g t - h ⟨a, g', connected, owner, heffect, rfl⟩ -
      exact fun key => (h.effect heffect) key)
    (fun _ h => h) hx.reachableIf
  have happend : (machine w free).Step x (appendEntry (.requests client sid) fields x.1, x.2) :=
    .env (.append rfl fields)
  have hstart : Kept w client sid e (appendEntry (.requests client sid) fields x.1) := by
    refine ⟨List.mem_cons_self, .inl ?_⟩
    dsimp only [appendEntry, Gateway.setStream]
    rw [Function.update_self]
    exact Stream.mem_add.2 (.inr he)
  -- what a step keeps while the session lives
  have key : Machine.HoldsIf (machine w free) (fun _ _ => True) (fun _ _ => True) (Moves w) (Sane w)
      (Between fun _ => True) z ∧ Dated z.1 ∧ Lives client sid z.1 ∧ Kept w client sid e z.1 := by
    induction hrun with
    | refl => exact ⟨(hsound.step hx happend.stepIf).1, hdated.append _ _, hlives, hstart⟩
    | tail _ hstep ih =>
      obtain ⟨hy, hdated, hlives, hkept⟩ := ih
      obtain ⟨hstep, hlives'⟩ := hstep
      obtain ⟨hz, hmove | ⟨hmove, -⟩ | hmove | hmove⟩ := hsound.step hy hstep.stepIf
      · exact ⟨hz, hdated.outside hmove, hlives', hkept.outside hlossy hlives hmove⟩
      · obtain ⟨a, g', connected, owner, heffect, heq⟩ := hmove
        have hlives'' : Lives client sid g' := by rwa [heq] at hlives'
        have hkept' := hkept.effect hdated hlives hlives'' heffect
        have hdated' := hdated.effect heffect
        refine ⟨hz, ?_, hlives', ?_⟩
        · rw [heq]
          exact hdated'
        · rw [heq]
          exact ⟨hkept'.1, hkept'.2⟩
      · refine ⟨hz, ?_, hlives', ?_⟩
        · rw [hmove]
          exact hdated
        · rw [hmove]
          exact ⟨hkept.1, hkept.2⟩
      · refine ⟨hz, ?_, hlives', ?_⟩
        · rw [hmove]
          exact hdated
        · rw [hmove]
          exact hkept
  exact key.2.2.2.known

/-- A session lives on where the steps of the programs leave it. -/
theorem Lives.stepIf {free : Prop} {x y : Gateway × Option (Prog Gateway Chance Unit)}
    (hx : Lives client sid x.1)
    (h : (machine w free).StepIf (fun _ _ => True) (fun _ t => Lives client sid t) x y) :
    Lives client sid y.1 := by
  cases h with
  | idle h => cases h <;> exact hx
  | env h _ => cases h <;> exact hx
  | act c hok => exact hok
  | start | done | crash => exact hx

/-- So it does in a whole run. -/
theorem Lives.run {free : Prop} {x y : Gateway × Option (Prog Gateway Chance Unit)}
    (hx : Lives client sid x.1)
    (hrun : Relation.ReflTransGen
      ((machine w free).StepIf (fun _ _ => True) fun _ t => Lives client sid t) x y) :
    Relation.ReflTransGen (fun a b => (machine w free).Step a b ∧ Lives client sid b.1) x y := by
  have key : Relation.ReflTransGen
      (fun a b => (machine w free).Step a b ∧ Lives client sid b.1) x y ∧ Lives client sid y.1 := by
    induction hrun with
    | refl => exact ⟨.refl, hx⟩
    | tail _ hstep ih =>
      obtain ⟨hsofar, hlives⟩ := ih
      have hlives' := hlives.stepIf hstep
      exact ⟨hsofar.tail ⟨hstep.step, hlives'⟩, hlives'⟩
  exact key.1

/-- Whether the sample session exists. -/
def sampleLives (g : Gateway) : Bool :=
  g.sessions.any fun s => decide (s.client = utf8 "c1" ∧ s.sid = sampleSite.randomId 0)

theorem lives_of_sampleLives (h : sampleLives g = true) : Lives "c1" (sampleSite.randomId 0) g := by
  obtain ⟨s, hs, hnames⟩ := List.any_eq_true.1 h
  exact ⟨s, hs, of_decide_eq_true hnames⟩

/-- A happening that takes the streams of a session. -/
def Drops : Happening → Bool
  | .dropped _ => true
  | _ => false

/-- A request that the journal holds after the entry is gone and the process has crashed. -/
theorem request_kept_crash : ∃ x z, (machine sampleWorld False).Reachable (x, none) ∧
    Lives "c1" (sampleSite.randomId 0) x ∧
    Relation.ReflTransGen (fun a b => (machine sampleWorld False).Step a b ∧
        Lives "c1" (sampleSite.randomId 0) b.1)
      (appendEntry sampleRequests [("json", sampleRequest "a" "interface.list")] x, none)
      (z, none) ∧
    (z.redis sampleRequests).entries = [] ∧
    Settled sampleWorld z "c1" (sampleSite.randomId 0)
      ((x.redis sampleRequests).next [("json", sampleRequest "a" "interface.list")]) := by
  have hscript : (script sampleWorld [.recover, .append .register sampleRegistration, .turn]
      { uploads := { now := 1000 } }).any
        (fun x => sampleLives x &&
          scriptChecks sampleWorld (fun _ t => sampleLives t) [.turn, .cut 3]
            (appendEntry sampleRequests [("json", sampleRequest "a" "interface.list")] x) &&
          (script sampleWorld [.turn, .cut 3]
            (appendEntry sampleRequests [("json", sampleRequest "a" "interface.list")] x)).any
            (fun z => (z.redis sampleRequests).entries.isEmpty && !z.log.any Drops)) = true := by
    decide +kernel
  obtain ⟨x, hx, hrest⟩ := (Option.any_eq_true _ _).1 hscript
  simp only [Bool.and_eq_true] at hrest
  obtain ⟨⟨hsession, hchecks⟩, hrest⟩ := hrest
  obtain ⟨z, hz, hrest⟩ := (Option.any_eq_true _ _).1 hrest
  rw [Bool.and_eq_true, List.isEmpty_iff, Bool.not_eq_true'] at hrest
  obtain ⟨hentries, hlog⟩ := hrest
  have hreach : (machine sampleWorld False).Reachable (x, none) := by
    refine reachable_script (by decide) (by decide) ?_ hx
    intro request response hmem
    simp at hmem
  have hlives := lives_of_sampleLives hsession
  have hrun : Relation.ReflTransGen (fun a b => (machine sampleWorld False).Step a b ∧
        Lives "c1" (sampleSite.randomId 0) b.1)
      (appendEntry sampleRequests [("json", sampleRequest "a" "interface.list")] x, none)
      (z, none) := by
    refine Lives.run hlives (runIf_script (fun _ _ h => lives_of_sampleLives h) ?_ hchecks hz)
    intro request response hmem
    simp at hmem
  refine ⟨x, z, hreach, hlives, hrun, hentries, ?_⟩
  rcases request_kept (fun h => h) hreach hlives _ hrun with hentry | hsettled | hdropped
  · rw [show (z.redis (.requests "c1" (sampleSite.randomId 0))).entries = [] from hentries] at hentry
    cases hentry
  · exact hsettled
  · obtain ⟨newer, older, heq, -, hdrop⟩ := hdropped
    have hany : z.log.any Drops = true :=
      List.any_eq_true.2 ⟨_, heq ▸ List.mem_append_left _ hdrop, rfl⟩
    rw [hlog] at hany
    cases hany

/-- A happening that may deal with an entry of a request stream. -/
def Deals : Happening → Bool
  | .published (.responses _ _) _ => true
  | .awaited _ _ => true
  | .rewound _ _ => true
  | _ => false

/-- A request that was dealt with has left a row or a mark in the history. -/
theorem Settled.deals (h : Settled w g client sid e) : g.jobs ≠ [] ∨ g.log.any Deals = true := by
  rcases h with ⟨request, -, j, hj, -⟩ | ⟨newer, older, heq, -, hanswered⟩
  · exact .inl (List.ne_nil_of_mem hj)
  · right
    rw [heq, List.any_eq_true]
    rcases hanswered with ⟨frame, hframe, -⟩ | ⟨request, target, -, -, hawaited | hrewound⟩
    · exact ⟨_, List.mem_append_left _ hframe, rfl⟩
    · exact ⟨_, List.mem_append_left _ hawaited, rfl⟩
    · exact ⟨_, List.mem_append_left _ hrewound, rfl⟩

/-- `Cleanup` is cut off after it has deleted the streams of a session whose lease has expired: the
session still exists, and the request is nowhere. -/
theorem request_kept_cleanup : ∃ x z, (machine sampleWorld False).Reachable (x, none) ∧
    Lives "c1" (sampleSite.randomId 0) x ∧
    (machine sampleWorld False).Run
      (appendEntry sampleRequests [("json", sampleRequest "a" "interface.list")] x, none)
      (z, none) ∧
    Lives "c1" (sampleSite.randomId 0) z ∧
    ¬ ((x.redis sampleRequests).next [("json", sampleRequest "a" "interface.list")] ∈
        (z.redis sampleRequests).entries ∨
      Settled sampleWorld z "c1" (sampleSite.randomId 0)
        ((x.redis sampleRequests).next [("json", sampleRequest "a" "interface.list")])) := by
  have hscript : (script sampleWorld [.recover, .append .register sampleRegistration, .turn]
      { uploads := { now := 1000 } }).any
        (fun x => sampleLives x &&
          (script sampleWorld [.tick 5000, .cut 11]
            (appendEntry sampleRequests [("json", sampleRequest "a" "interface.list")] x)).any
            (fun z => sampleLives z && (z.redis sampleRequests).entries.isEmpty &&
              z.jobs.isEmpty && !z.log.any Deals)) = true := by
    decide +kernel
  obtain ⟨x, hx, hrest⟩ := (Option.any_eq_true _ _).1 hscript
  rw [Bool.and_eq_true] at hrest
  obtain ⟨hsession, hrest⟩ := hrest
  obtain ⟨z, hz, hrest⟩ := (Option.any_eq_true _ _).1 hrest
  simp only [Bool.and_eq_true, List.isEmpty_iff, Bool.not_eq_true'] at hrest
  obtain ⟨⟨⟨hsession', hentries⟩, hjobs⟩, hlog⟩ := hrest
  have hreach : (machine sampleWorld False).Reachable (x, none) := by
    refine reachable_script (by decide) (by decide) ?_ hx
    intro request response hmem
    simp at hmem
  have hrun : Relation.ReflTransGen
      ((machine sampleWorld False).StepIf (fun _ _ => True) fun _ _ => True)
      (appendEntry sampleRequests [("json", sampleRequest "a" "interface.list")] x, none)
      (z, none) := by
    refine runIf_script (fun _ _ _ => trivial) ?_ (scriptChecks_true _ _) hz
    intro request response hmem
    simp at hmem
  refine ⟨x, z, hreach, lives_of_sampleLives hsession,
    Relation.ReflTransGen.mono (fun _ _ h => h.step) _ _ hrun, lives_of_sampleLives hsession', ?_⟩
  intro hkept
  rcases hkept with hentry | hsettled
  · rw [hentries] at hentry
    cases hentry
  · rcases hsettled.deals with hne | hdeals
    · exact hne hjobs
    · rw [hlog] at hdeals
      cases hdeals

end

end VppJson.Gateway
