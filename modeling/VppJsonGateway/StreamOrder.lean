import VppJsonGateway.GatewayRuns

/-!
# What a reader of a stream finds

Clients append to the request streams and the gateway to the others; entries leave in any order, by
an acknowledgment, by `Remove`, with the session, or when Redis drops them. `Told` ties a stream to
the history of what was written to it. What is left is always a part of that, in its order and under
rising IDs, and on a stream of the gateway it is never more than the window.
-/

namespace VppJson

open Lib

/-- The text that was written to a stream. -/
def Happening.written? (key : Key) : Happening → Option Bytes
  | .appended key' entry => if key' = key then some (Gateway.body entry) else none
  | .published key' frame => if key' = key then some frame else none
  | _ => none

/-- The texts that were written to a stream, in the order in which they were. -/
def writtenTo (key : Key) (log : List Happening) : List Bytes :=
  (log.filterMap (Happening.written? key)).reverse

/-- A new happening comes last. -/
theorem writtenTo_cons (key : Key) (h : Happening) (log : List Happening) :
    writtenTo key (h :: log) = writtenTo key log ++ (h.written? key).toList := by
  unfold writtenTo
  cases hwritten : h.written? key with
  | none => simp [hwritten]
  | some text => simp [hwritten]

namespace Gateway

/-- A stream and the history. -/
structure Told (s : Stream) (window : Option Nat) (texts : List Bytes) : Prop where
  order : (s.entries.map body).Sublist texts
  rising : s.entries.Pairwise (·.id < ·.id)
  last : ∀ e ∈ s.entries, e.id ≤ s.last
  room : ∀ n, window = some n → s.entries.length ≤ n

/-- The most entries the gateway leaves in a stream. -/
def windowOf (key : Key) : Option Nat := if key.isInput then none else some Limits.window

/-- The streams are told by the history. -/
def Recorded (g : Gateway) : Prop :=
  ∀ key, Told (g.redis key) (windowOf key) (writtenTo key g.log)

section

variable {w : World} {g t : Gateway} {s : Stream} {window : Option Nat} {texts : List Bytes}

/-- Entries leave a stream. -/
theorem Told.sublist (h : Told s window texts) {entries : List Entry}
    (hsub : entries.Sublist s.entries) : Told { s with entries } window texts where
  order := (hsub.map body).trans h.order
  rising := h.rising.sublist hsub
  last := fun e he => h.last e (hsub.subset he)
  room := fun n hn => hsub.length_le.trans (h.room n hn)

/-- An entry is added where there is room. -/
theorem Told.add (h : Told s window texts) (fields : List (Bytes × Bytes)) {text : Bytes}
    (htext : body (s.next fields) = text) (hroom : ∀ n, window = some n → s.entries.length < n) :
    Told (s.add fields) window (texts ++ [text]) where
  order := by
    rw [Stream.add, List.map_append, List.map_singleton, htext]
    exact h.order.append (.refl _)
  rising := by
    refine List.pairwise_append.2 ⟨h.rising, List.pairwise_singleton _ _, fun e he e' he' => ?_⟩
    rw [List.mem_singleton.1 he']
    exact Nat.lt_succ_of_le (h.last e he)
  last := by
    intro e he
    rcases Stream.mem_add.1 he with he | rfl
    · exact Nat.le_succ_of_le (h.last e he)
    · exact le_rfl
  room := by
    intro n hn
    have := hroom n hn
    simp only [Stream.add, List.length_append, List.length_singleton]
    omega

/-- A client may be told less. -/
theorem Told.mono (h : Told s window texts) {texts' : List Bytes} (hsub : texts.Sublist texts') :
    Told s window texts' := ⟨h.order.trans hsub, h.rising, h.last, h.room⟩

/-- A happening adds to what was written, if anything. -/
theorem writtenTo_sublist (key : Key) (e : Happening) (log : List Happening) :
    (writtenTo key log).Sublist (writtenTo key (e :: log)) := by
  rw [writtenTo_cons]
  exact List.sublist_append_left _ _

/-- The history grows, and the streams lose entries only. -/
theorem Recorded.shrink (h : Recorded g)
    (hredis : ∀ key, ∃ entries, t.redis key = { g.redis key with entries } ∧
      entries.Sublist (g.redis key).entries)
    (hlog : ∀ key, (writtenTo key g.log).Sublist (writtenTo key t.log)) : Recorded t := by
  intro key
  obtain ⟨entries, heq, hsub⟩ := hredis key
  rw [heq]
  exact ((h key).sublist hsub).mono (hlog key)

/-- One stream loses entries. -/
theorem Recorded.setStream (h : Recorded g) {key : Key} {entries : List Entry}
    (hsub : entries.Sublist (g.redis key).entries) :
    Recorded (g.setStream key { g.redis key with entries }) := by
  refine h.shrink (fun key' => ?_) fun _ => .refl _
  by_cases hkey : key' = key
  · subst hkey
    exact ⟨entries, Function.update_self .., hsub⟩
  · exact ⟨_, Function.update_of_ne hkey .., .refl _⟩

/-- The streams are left alone. -/
theorem Recorded.same (h : Recorded g) (hredis : t.redis = g.redis)
    (hlog : t.log = g.log ∨ ∃ e, t.log = e :: g.log) : Recorded t := by
  refine h.shrink (fun key => ⟨_, congrFun hredis key, .refl _⟩) fun key => ?_
  rcases hlog with hlog | ⟨e, hlog⟩
  · rw [hlog]
  · rw [hlog]
    exact writtenTo_sublist key e g.log

/-- One stream gains an entry, which the history notes. -/
theorem Recorded.add (h : Recorded g) {key : Key} {fields : List (Bytes × Bytes)} {text : Bytes}
    {e : Happening} (htext : body ((g.redis key).next fields) = text)
    (hnoted : ∀ key', e.written? key' = if key = key' then some text else none)
    (hroom : ∀ n, windowOf key = some n → (g.redis key).entries.length < n) :
    Recorded { g.setStream key ((g.redis key).add fields) with log := e :: g.log } := by
  intro key'
  dsimp only [Gateway.setStream]
  rw [writtenTo_cons, hnoted]
  by_cases hkey : key' = key
  · subst hkey
    rw [Function.update_self, if_pos rfl]
    exact (h key').add fields htext hroom
  · rw [Function.update_of_ne hkey, if_neg (Ne.symm hkey)]
    exact (h key').mono (List.sublist_append_left _ _)

/-- What is published is recorded, or refused by the window. -/
theorem Recorded.publish (h : Recorded g) {key : Key} (hkey : key.isInput = false) (json : Bytes) :
    Recorded (publishScript key json g).2 := by
  unfold publishScript
  split
  · exact h
  next hfull =>
  refine h.add rfl (fun _ => rfl) fun n hn => ?_
  rw [windowOf, hkey] at hn
  rw [← Option.some.inj hn]
  exact not_le.1 hfull

/-- The streams after those of a session were deleted. -/
theorem dropStreams_redis (session : Session) (g : Gateway) (key : Key) :
    (dropStreams session g).redis key =
      if key = .requests session.client session.sid ∨ key = .responses session.client session.sid
      then (g.redis key).clear else g.redis key := by
  dsimp only [dropStreams, Gateway.setStream]
  by_cases hresponses : key = .responses session.client session.sid
  · subst hresponses
    rw [Function.update_self, if_pos (.inr rfl)]
  rw [Function.update_of_ne hresponses]
  by_cases hrequests : key = .requests session.client session.sid
  · subst hrequests
    rw [Function.update_self, if_pos (.inl rfl)]
  · rw [Function.update_of_ne hrequests, if_neg (not_or.2 ⟨hrequests, hresponses⟩)]

/-- Other parties only take entries away. -/
theorem Recorded.outside (h : Recorded g) (ht : Outside w g t) : Recorded t := by
  cases ht with
  | @append key hkey fields =>
    refine h.add rfl (fun _ => rfl) fun n hn => ?_
    rw [windowOf, hkey] at hn
    cases hn
  | trim hsub => exact h.setStream hsub
  | tick | own | scribble | finish => exact h.same rfl (.inl rfl)

/-- The main thread publishes, and removes what it has read. -/
theorem Recorded.effect {a : Actor} (h : Recorded g) (heffect : Effect w g a t) : Recorded t := by
  cases heffect with
  | discard entry => exact h.setStream List.filter_sublist
  | remove => exact h.setStream List.filter_sublist
  | welcome => exact h.publish rfl _
  | reply => exact h.publish rfl _
  | line => exact h.publish rfl _
  | @drop session =>
    refine h.shrink (fun key => ?_) fun key => writtenTo_sublist key (.dropped session.sid) g.log
    rw [dropStreams_redis]
    split
    · exact ⟨[], rfl, List.nil_sublist _⟩
    · exact ⟨_, rfl, .refl _⟩
  | enqueue | await | rewind | start | renew | hand | submit => exact h.same rfl (.inr ⟨_, rfl⟩)
  | stay | enter | transfer | collect | release | write | markDone | recovered | advance | unlink
    | expire | swept => exact h.same rfl (.inl rfl)

/-- **What is in a stream was written to it**, in this order and under rising IDs, whatever was
acknowledged, lost or repeated, and a reader that does not acknowledge finds no more frames of the
gateway than the window. -/
theorem streams_in_order {free : Prop} {x : Gateway × Option (Prog Gateway Chance Unit)}
    (hx : (machine w free).Reachable x) (key : Key) :
    (((x.1.redis key).entries.map body).Sublist (writtenTo key x.1.log)) ∧
      (x.1.redis key).entries.Pairwise (·.id < ·.id) ∧
        (key.isInput = false → (x.1.redis key).entries.length ≤ Limits.window) := by
  have hrecorded : Recorded x.1 := (invariant (J := Recorded) ?_ (fun _ h ht => h.outside ht)
    (fun _ h heffect => h.effect heffect) (fun h => h) (fun _ h => h) hx).2
  · refine ⟨(hrecorded key).order, (hrecorded key).rising, fun hkey => (hrecorded key).room _ ?_⟩
    rw [windowOf, hkey]
    rfl
  · rintro g ⟨now, owner, -, -, rfl⟩ key
    exact ⟨.refl _, .nil, fun _ he => absurd he List.not_mem_nil, fun _ _ => Nat.zero_le _⟩

/-- The reply to a registration, on the bootstrap stream of its client. -/
theorem streams_in_order_welcome : ∃ g, (machine sampleWorld False).Reachable (g, none) ∧
    (g.redis (.bootstrap "c1")).entries.length = 1 ∧
      ((g.redis (.bootstrap "c1")).entries.map body).Sublist
        (writtenTo (.bootstrap "c1") g.log) := by
  have hscript : (script sampleWorld [.recover, .append .register sampleRegistration, .turn]
      { uploads := { now := 1000 } }).any
        (fun g => decide ((g.redis (.bootstrap "c1")).entries.length = 1)) = true := by
    decide +kernel
  obtain ⟨g, hg, hlength⟩ := (Option.any_eq_true _ _).1 hscript
  have hreach : (machine sampleWorld False).Reachable (g, none) := by
    refine reachable_script (by decide) (by decide) ?_ hg
    intro request response hmem
    simp at hmem
  exact ⟨g, hreach, of_decide_eq_true hlength, (streams_in_order hreach _).1⟩

end

end Gateway

end VppJson
