import VppJsonGateway.GatewayRuns
import VppJsonGateway.RoundTrip

/-!
# The budgets of the gateway

The journal keeps the bodies of requests and the sizes of responses. `Receive` admits a request by
the sum of the bodies, `StartJob` gives a job what is left of the sum of the sizes, once, when it
starts; short replies are written whatever is left.
-/

namespace VppJson

open Lib

namespace Gateway

section

variable {w : World} {a : Actor} {g t : Gateway}

/-! ## Sums over the journal -/

/-- A sum over the journal. -/
def sum (p : Job → Nat) (g : Gateway) : Nat := (g.jobs.map p).sum

/-- What `UPDATE` does to a sum. -/
theorem sum_updateJob (hkeys : (g.jobs.map fun j => (j.sid, j.id)).Nodup) {row : Job}
    (hrow : row ∈ g.jobs) (f : Job → Job) (p : Job → Nat) :
    (g.updateJob row.sid row.id f).sum p + p row = g.sum p + p (f row) := by
  have key : ∀ jobs : List Job, (jobs.map fun j => (j.sid, j.id)).Nodup → row ∈ jobs →
      ((jobs.map fun j => if j.Is row.sid row.id then f j else j).map p).sum + p row =
        (jobs.map p).sum + p (f row) := by
    intro jobs
    induction jobs with
    | nil => exact fun _ hrow => absurd hrow List.not_mem_nil
    | cons j jobs ih =>
      intro hkeys hrow
      obtain ⟨hfresh, hkeys⟩ := List.nodup_cons.1 hkeys
      have hother : ∀ j' ∈ jobs, ¬ j'.Is j.sid j.id := by
        intro j' hj' his
        refine hfresh (List.mem_map.2 ⟨j', hj', ?_⟩)
        rw [his.1, his.2]
      simp only [List.map_cons, List.sum_cons]
      rcases List.mem_cons.1 hrow with rfl | hmem
      · have hsame : jobs.map (fun j => if j.Is row.sid row.id then f j else j) = jobs := by
          refine (List.map_congr_left fun j' hj' => ?_).trans (List.map_id _)
          rw [if_neg (hother j' hj'), id]
        rw [hsame, if_pos ⟨rfl, rfl⟩]
        omega
      · have hne : ¬ j.Is row.sid row.id := fun his => hother row hmem ⟨his.1.symm, his.2.symm⟩
        rw [if_neg hne]
        have := ih hkeys hmem
        omega
  exact key g.jobs hkeys hrow

/-- A session takes its rows along. -/
theorem sum_deleteSession_le (sid : Bytes) (p : Job → Nat) : (g.deleteSession sid).sum p ≤ g.sum p :=
  sum_filter_le _ p g.jobs

/-- How a step of the main thread changes the journal. -/
inductive Rewrites (w : World) (g t : Gateway) : Prop
  | same (h : t.jobs = g.jobs)
  /-- A request is journaled. -/
  | enqueue {job : Job} (h : t.jobs = g.jobs ++ [job]) (hsize : job.size = 0)
      (htext : ∃ request : Json, job.body = request.dump)
      (hroom : g.retained + job.body.length ≤ 16 * 1024 * 1024)
  /-- The state or the offset of a job is set. -/
  | update {sid id : Bytes} {f : Job → Job} (h : t.jobs = (g.updateJob sid id f).jobs)
      (hf : ∀ j, (f j).sid = j.sid ∧ (f j).body = j.body ∧ (f j).size = j.size)
  /-- A job is marked done. -/
  | markDone {row : Job} {file : Bytes} (hrow : row ∈ g.jobs)
      (h : t.jobs = (g.updateJob row.sid row.id
        fun j => { j with state := .done, size := file.length, offset := 0 }).jobs)
      (hfits : w.env.Rereads → w.Brief → Affordable g row.sid file.length)
  /-- A session is deleted. -/
  | delete {sid : Bytes} (h : t.jobs = (g.deleteSession sid).jobs)

/-- An effect leaves the rows, or rewrites them in one of four ways. -/
theorem Effect.rewrites (h : Effect w g a t) : Rewrites w g t := by
  cases h with
  | enqueue hfree hsession hid hbody htext hpath hfresh hcount hroom =>
    exact .enqueue rfl hfresh.2.2 htext hroom
  | rewind => exact .update rfl fun _ => ⟨rfl, rfl, rfl⟩
  | start => exact .update rfl fun _ => ⟨rfl, rfl, rfl⟩
  | advance => exact .update rfl fun _ => ⟨rfl, rfl, rfl⟩
  | markDone a hidle hrow hstate hfile hspooled hfits hsmall =>
    exact .markDone hrow rfl hfits
  | expire => exact .delete rfl
  | welcome | reply | line =>
    obtain ⟨redis, log, heq⟩ := publishScript_eq _ _ g
    rw [heq]
    exact .same rfl
  | stay | discard | enter | remove | await | transfer | renew | hand | submit | collect | release
    | write | recovered | unlink | drop | swept => exact .same rfl

/-! ## Response storage -/

/-- What a job counts where short replies are free. -/
def charge (j : Job) : Nat := if j.size ≤ 4096 then 0 else j.size

/-- What a job counts for one session. -/
def chargeOf (sid : Bytes) (j : Job) : Nat := if j.sid = sid then charge j else 0

/-- The sizes stay within the budgets but for short replies. -/
def Charged (g : Gateway) : Prop :=
  g.sum charge ≤ 256 * 1024 * 1024 ∧ ∀ sid, g.sum (chargeOf sid) ≤ 64 * 1024 * 1024

theorem charge_le (j : Job) : charge j ≤ j.size := by
  unfold charge
  split
  · exact Nat.zero_le _
  · exact le_rfl

/-- What is charged is within what is used. -/
theorem sum_charge_le (g : Gateway) : g.sum charge ≤ g.used :=
  List.sum_le_sum fun j _ => charge_le j

/-- So it is for one session. -/
theorem sum_chargeOf_le (g : Gateway) (sid : Bytes) : g.sum (chargeOf sid) ≤ g.usedBy sid := by
  rw [usedBy_eq]
  refine List.sum_le_sum fun j _ => ?_
  unfold chargeOf
  split
  · exact charge_le j
  · exact le_rfl

/-- What a job that is marked done adds. -/
theorem sum_markDone_le (hkeys : (g.jobs.map fun j => (j.sid, j.id)).Nodup) {row : Job}
    (hrow : row ∈ g.jobs) (n : Nat) {p : Job → Nat} (hp : ∀ j, p j ≤ charge j) :
    (g.updateJob row.sid row.id fun j => { j with state := .done, size := n, offset := 0 }).sum p ≤
      g.sum p + if n ≤ 4096 then 0 else n := by
  have hsum := sum_updateJob hkeys hrow
    (fun j => { j with state := .done, size := n, offset := 0 }) p
  have hnew : p { row with state := .done, size := n, offset := 0 } ≤
      if n ≤ 4096 then 0 else n := hp _
  omega

/-- Only a response that is done counts, and it was affordable then. -/
theorem Rewrites.charged (henv : w.env.Rereads) (hbrief : w.Brief) (hg : Consistent w g)
    (h : Rewrites w g t) (hcharged : Charged g) : Charged t := by
  obtain ⟨htotal, hshare⟩ := hcharged
  cases h with
  | same h =>
    unfold Charged sum
    rw [h]
    exact ⟨htotal, hshare⟩
  | @enqueue job h hsize =>
    have hzero : charge job = 0 := by
      rw [charge, hsize, if_pos (Nat.zero_le _)]
    have hzero' : ∀ sid, chargeOf sid job = 0 := by
      intro sid
      rw [chargeOf, hzero, ite_self]
    have hsum : ∀ p : Job → Nat, p job = 0 → t.sum p = g.sum p := by
      intro p hp
      rw [sum, sum, h, List.map_append, List.sum_append, List.map_singleton, List.sum_singleton, hp,
        Nat.add_zero]
    exact ⟨(hsum _ hzero).trans_le htotal, fun sid => (hsum _ (hzero' sid)).trans_le (hshare sid)⟩
  | @update sid id f h hf =>
    have hcharge : ∀ j, charge (f j) = charge j := by
      intro j
      rw [charge, charge, (hf j).2.2]
    have hsum : ∀ p : Job → Nat, (∀ j, p (f j) = p j) → t.sum p = g.sum p := by
      intro p hp
      rw [sum, sum, h, map_updateJob hp]
    refine ⟨(hsum _ hcharge).trans_le htotal, fun sid => (hsum _ fun j => ?_).trans_le (hshare sid)⟩
    rw [chargeOf, chargeOf, hcharge, (hf j).1]
  | @markDone row file hrow h hfits =>
    have hnew : ∀ p : Job → Nat, t.sum p =
        (g.updateJob row.sid row.id
          fun j => { j with state := .done, size := file.length, offset := 0 }).sum p := by
      intro p
      rw [sum, sum, h]
    have hafford := hfits henv hbrief
    refine ⟨?_, fun sid => ?_⟩
    · have hle := sum_markDone_le hg.keys hrow file.length (p := charge) fun _ => le_rfl
      have hused := sum_charge_le g
      rw [hnew]
      unfold Affordable at hafford
      split_ifs at hle
      all_goals omega
    · have hle : ∀ j, chargeOf sid j ≤ charge j := by
        intro j
        unfold chargeOf
        split
        · exact le_rfl
        · exact Nat.zero_le _
      rw [hnew]
      by_cases hsid : row.sid = sid
      · have hle := sum_markDone_le hg.keys hrow file.length hle
        have hused := sum_chargeOf_le g sid
        have hbudget := hshare sid
        rw [← hsid] at hused hbudget hle ⊢
        unfold Affordable at hafford
        split_ifs at hle
        all_goals omega
      · have hsum := sum_updateJob hg.keys hrow
          (fun j => { j with state := .done, size := file.length, offset := 0 }) (chargeOf sid)
        have hbudget := hshare sid
        simp only [chargeOf, if_neg hsid] at hsum hbudget ⊢
        omega
  | @delete sid h =>
    have hsum : ∀ p : Job → Nat, t.sum p ≤ g.sum p := by
      intro p
      rw [sum, h]
      exact sum_deleteSession_le sid p
    exact ⟨(hsum _).trans htotal, fun s => (hsum _).trans (hshare s)⟩

/-- The sizes stay within the budgets but for short replies, in every state. -/
theorem charged_of_reachable (henv : w.env.Rereads) (hbrief : w.Brief) {free : Prop}
    {x : Gateway × Option (Prog Gateway Chance Unit)} (hx : (machine w free).Reachable x) :
    Charged x.1 := by
  refine (invariant (J := Charged) ?_ ?_ ?_ (fun h => h) (fun _ h => h) hx).2
  · rintro g ⟨now, owner, -, -, rfl⟩
    exact ⟨Nat.zero_le _, fun _ => Nat.zero_le _⟩
  · intro g t _ hg hout
    unfold Charged sum at hg ⊢
    rw [hout.stable.jobs]
    exact hg
  · exact fun hsane hg heffect => heffect.rewrites.charged henv hbrief hsane.1 hg

/-- What is charged, and 4096 octets for every job. -/
theorem sum_le_charge (jobs : List Job) :
    (jobs.map (·.size)).sum ≤ (jobs.map charge).sum + 4096 * jobs.length := by
  induction jobs with
  | nil => exact Nat.zero_le _
  | cons j jobs ih =>
    have hj : j.size ≤ charge j + 4096 := by
      unfold charge
      split
      · omega
      · omega
    simp only [List.map_cons, List.sum_cons, List.length_cons]
    omega

/-- The charges of a session. -/
theorem sum_jobsOf (g : Gateway) (sid : Bytes) :
    ((g.jobsOf sid).map charge).sum = g.sum (chargeOf sid) := by
  unfold jobsOf sum
  induction g.jobs with
  | nil => rfl
  | cons j jobs ih =>
    by_cases hj : j.sid = sid
    · simp [hj, ih, chargeOf]
    · simp [hj, ih, chargeOf]

/-- **The response storage budget.** Whatever the requests ask for and whenever the gateway
crashes, the journaled sizes of a session stay within 64 MiB, and those of all sessions within
256 MiB, but for 4096 octets a job. -/
theorem response_storage (w : World) (henv : w.env.Rereads) (hbrief : w.Brief) (free : Prop)
    {x : Gateway × Option (Prog Gateway Chance Unit)} (hx : (machine w free).Reachable x) :
    (∀ sid, x.1.usedBy sid ≤ 64 * 1024 * 1024 + 4096 * (x.1.jobsOf sid).length) ∧
      x.1.used ≤ 256 * 1024 * 1024 + 4096 * x.1.jobs.length := by
  obtain ⟨htotal, hshare⟩ := charged_of_reachable henv hbrief hx
  refine ⟨fun sid => ?_, ?_⟩
  · refine (sum_le_charge _).trans (Nat.add_le_add_right ?_ _)
    rw [sum_jobsOf]
    exact hshare sid
  · exact (sum_le_charge _).trans (Nat.add_le_add_right htotal _)

/-- One request, answered by the main thread. -/
def sampleDescribe : List Event :=
  [.recover, .append .register sampleRegistration, .turn,
    .append sampleRequests (sampleRequest "a" "api.describe"), .turn]

/-- A run in which a response is stored. -/
theorem response_storage_described : ∃ g, (machine sampleWorld False).Reachable (g, none) ∧
    0 < g.used ∧ (∀ sid, g.usedBy sid ≤ 64 * 1024 * 1024 + 4096 * (g.jobsOf sid).length) ∧
      g.used ≤ 256 * 1024 * 1024 + 4096 * g.jobs.length := by
  have hscript : (script sampleWorld sampleDescribe { uploads := { now := 1000 } }).any
      (fun g => decide (0 < g.used)) = true := by
    decide +kernel
  obtain ⟨g, hg, hused⟩ := (Option.any_eq_true _ _).1 hscript
  have hreach : (machine sampleWorld False).Reachable (g, none) := by
    refine reachable_script (by decide) (by decide) ?_ hg
    intro request response hmem
    simp [sampleDescribe] at hmem
  have henv : sampleWorld.env.Rereads := fun _ _ h => by cases h
  have hbrief : sampleWorld.Brief := by
    rintro request response rfl
    refine ⟨by decide, fun items status h => ?_⟩
    cases h
    decide
  exact ⟨g, hreach, of_decide_eq_true hused, response_storage sampleWorld henv hbrief False hreach⟩

/-! ## Retained requests -/

/-- A text of ASCII characters. -/
def Ascii (text : Bytes) : Prop := ∀ b ∈ text, b < 0x80

/-- The octets of the retained bodies. -/
def retainedBytes (g : Gateway) : Nat := g.sum fun j => j.body.length

/-- A request is journaled only while all retained bodies are ASCII. -/
def AsciiRetained (g t : Gateway) : Prop :=
  g.jobs.length < t.jobs.length → ∀ j ∈ g.jobs, Ascii j.body

/-- An ASCII body has as many characters as octets. -/
theorem length_of_ascii {request : Json} (h : Ascii request.dump) :
    Gateway.length request.dump = request.dump.length := by
  have hprint : ∀ b ∈ request.dump, b ≠ 0 := by
    rintro b hb rfl
    exact absurd (Json.printable_of_mem_dump hb) (by decide)
  have htake : request.dump.takeWhile (· ≠ 0) = request.dump :=
    List.takeWhile_eq_self_iff.2 fun b hb => decide_eq_true (hprint b hb)
  rw [Gateway.length, htake, List.countP_eq_length]
  intro b hb
  have := UInt8.lt_iff_toNat_lt.1 (h b hb)
  have hsmall : b.toNat / 64 < 2 := by
    change b.toNat < 128 at this
    omega
  exact decide_eq_true (by omega)

/-- Every retained body is the text of a request, and together they keep within the quota. -/
structure Retains (g : Gateway) : Prop where
  text : ∀ j ∈ g.jobs, ∃ request : Json, j.body = request.dump
  fits : g.retainedBytes ≤ 16 * 1024 * 1024

/-- A body is retained where there is room, and is never changed afterwards. -/
theorem Rewrites.retains (h : Rewrites w g t) (hascii : AsciiRetained g t) (hg : Retains g) :
    Retains t := by
  have hupdate : ∀ {sid id : Bytes} {f : Job → Job}, t.jobs = (g.updateJob sid id f).jobs →
      (∀ j, (f j).body = j.body) → Retains t := by
    intro sid id f h hf
    refine ⟨fun j hj => ?_, ?_⟩
    · rw [h] at hj
      obtain ⟨j', hj', rfl⟩ := mem_updateJob hj
      split
      · rw [hf]
        exact hg.text j' hj'
      · exact hg.text j' hj'
    · have hsum : t.retainedBytes = g.retainedBytes := by
        have hlen : ∀ j, (f j).body.length = j.body.length := fun j => by rw [hf]
        rw [retainedBytes, retainedBytes, sum, sum, h, map_updateJob hlen]
      exact hsum.trans_le hg.fits
  cases h with
  | same h =>
    refine ⟨h ▸ hg.text, ?_⟩
    rw [retainedBytes, sum, h]
    exact hg.fits
  | @enqueue job h hsize htext hroom =>
    have hall := hascii (by rw [h, List.length_append, List.length_singleton]; exact Nat.lt_succ_self _)
    have hsame : g.retainedBytes = g.retained := by
      refine congrArg List.sum (List.map_congr_left fun j hj => ?_)
      obtain ⟨request, hbody⟩ := hg.text j hj
      have hplain := hall j hj
      rw [hbody] at hplain ⊢
      exact (length_of_ascii hplain).symm
    refine ⟨fun j hj => ?_, ?_⟩
    · rw [h] at hj
      rcases List.mem_append.1 hj with hj | hj
      · exact hg.text j hj
      · rw [List.mem_singleton.1 hj]
        exact htext
    · have hsum : t.retainedBytes = g.retainedBytes + job.body.length := by
        rw [retainedBytes, retainedBytes, sum, sum, h, List.map_append, List.sum_append,
          List.map_singleton, List.sum_singleton]
      rw [hsum, hsame]
      exact hroom
  | update h hf => exact hupdate h fun j => (hf j).2.1
  | markDone hrow h => exact hupdate h fun _ => rfl
  | delete h =>
    refine ⟨fun j hj => ?_, ?_⟩
    · rw [h] at hj
      exact hg.text j (List.mem_of_mem_filter hj)
    · rw [retainedBytes, sum, h]
      exact (sum_deleteSession_le _ _).trans hg.fits

/-- Only the rows count. -/
theorem Rewrites.congr {t' : Gateway} (h : Rewrites w g t) (hjobs : t'.jobs = t.jobs) :
    Rewrites w g t' := by
  cases h with
  | same h => exact .same (hjobs.trans h)
  | enqueue h hsize htext hroom => exact .enqueue (hjobs.trans h) hsize htext hroom
  | update h hf => exact .update (hjobs.trans h) hf
  | markDone hrow h hfits => exact .markDone hrow (hjobs.trans h) hfits
  | delete h => exact .delete (hjobs.trans h)

/-- A step of the main thread rewrites rows as one of its effects does. -/
theorem Moves.rewrites (h : Moves w g t) : Rewrites w g t := by
  obtain ⟨a, g', connected, owner, heffect, rfl⟩ := h
  exact heffect.rewrites.congr rfl

/-- **The retained request budget, where it holds.** The quota counts the characters of the bodies
there are and the octets of the new one: in a run that journals requests only while the retained
bodies are ASCII, the bodies have at most 16 MiB. -/
theorem retained_requests (w : World) (free : Prop)
    {x : Gateway × Option (Prog Gateway Chance Unit)}
    (hx : (machine w free).ReachableIf (fun _ _ => True) AsciiRetained x) :
    x.1.retainedBytes ≤ 16 * 1024 * 1024 := by
  refine (invariantIf (J := Retains) ?_ ?_ ?_ (fun _ h => ⟨h.text, h.fits⟩) hx).2.fits
  · rintro g ⟨now, owner, -, -, rfl⟩
    exact ⟨fun j hj => absurd hj List.not_mem_nil, Nat.zero_le _⟩
  · intro g t _ hg hout
    refine ⟨hout.stable.jobs ▸ hg.text, ?_⟩
    rw [retainedBytes, sum, hout.stable.jobs]
    exact hg.fits
  · exact fun _ hg hmove hascii => hmove.rewrites.retains hascii hg

/-- A session sends two requests for the worker. -/
def sampleRetained : List Event :=
  [.recover, .append .register sampleRegistration, .turn,
    .append sampleRequests (sampleRequest "a" "interface.list"),
    .append sampleRequests (sampleRequest "b" "interface.list"), .turn, .turn]

/-- A run that retains two ASCII requests. -/
theorem retained_requests_described : ∃ g,
    (machine sampleWorld False).ReachableIf (fun _ _ => True) AsciiRetained (g, none) ∧
      g.jobs.length = 2 ∧ 0 < g.retainedBytes ∧ g.retainedBytes ≤ 16 * 1024 * 1024 := by
  have hscript : (script sampleWorld sampleRetained { uploads := { now := 1000 } }).any
      (fun g => decide (g.jobs.length = 2 ∧ 0 < g.retainedBytes)) = true := by
    decide +kernel
  obtain ⟨g, hg, hboth⟩ := (Option.any_eq_true _ _).1 hscript
  obtain ⟨hjobs, hbytes⟩ := of_decide_eq_true hboth
  let check : Gateway → Gateway → Bool := fun g t =>
    decide (g.jobs.length < t.jobs.length → ∀ j ∈ g.jobs, ∀ b ∈ j.body, b < 0x80)
  have hchecks : scriptChecks sampleWorld check sampleRetained { uploads := { now := 1000 } } =
      true := by
    decide +kernel
  have hreach : (machine sampleWorld False).ReachableIf (fun _ _ => True) AsciiRetained (g, none) := by
    refine ⟨_, ⟨1000, none, by decide, by decide, rfl⟩, runIf_script ?_ ?_ hchecks hg⟩
    · intro g t h
      have hascii : g.jobs.length < t.jobs.length → ∀ j ∈ g.jobs, ∀ b ∈ j.body, b < 0x80 :=
        of_decide_eq_true h
      exact hascii
    · intro request response hmem
      simp [sampleRetained] at hmem
  exact ⟨g, hreach, hjobs, hbytes, retained_requests sampleWorld False hreach⟩

end

/-! ## Requests of many octets -/

theorem redis_setStream_self (g : Gateway) (key : Key) (s : Stream) :
    (g.setStream key s).redis key = s :=
  Function.update_self _ _ _

theorem redis_setStream_of_ne {key key' : Key} (h : key' ≠ key) (g : Gateway) (s : Stream) :
    (g.setStream key s).redis key' = g.redis key' :=
  Function.update_of_ne h _ _

/-- Characters of three octets each. -/
def euros (k : Nat) : Bytes := (List.replicate k [0xE2, 0x82, 0xAC]).flatten

theorem euros_succ (k : Nat) : euros (k + 1) = [0xE2, 0x82, 0xAC] ++ euros k := rfl

theorem valid_euros (k : Nat) : Utf8.Valid (euros k) := by
  induction k with
  | zero => rfl
  | succ k ih =>
    have hone : Utf8.Valid [0xE2, 0x82, 0xAC] := by decide
    exact hone.append ih

theorem length_euros (k : Nat) : (euros k).length = 3 * k := by
  induction k with
  | zero => rfl
  | succ k ih =>
    rw [euros_succ, List.length_append, ih]
    exact (Nat.add_comm _ _)

/-- The characters of a text. -/
def chars (text : Bytes) : Nat := text.countP fun b => decide (b.toNat / 64 ≠ 2)

theorem chars_append (s t : Bytes) : chars (s ++ t) = chars s + chars t := List.countP_append

theorem chars_euros (k : Nat) : chars (euros k) = k := by
  induction k with
  | zero => rfl
  | succ k ih =>
    rw [euros_succ, chars_append, ih]
    exact (Nat.add_comm _ _)

/-- SQLite counts characters up to the first NUL. -/
theorem length_le_chars (text : Bytes) : Gateway.length text ≤ chars text :=
  (List.takeWhile_sublist _).countP_le

/-- The text between the ID and the characters of `x`. -/
def bigMiddle : Bytes := utf8 "\",\"method\":\"interface.list\",\"params\":\x7b\"x\":\""

/-- A request with the given number of characters. -/
def bigRequest (id : Bytes) (k : Nat) : Json :=
  .obj [("id", .str id), ("method", .str "interface.list"), ("params", .obj [("x", .str (euros k))])]

/-- The text of the request of `k` euro signs. -/
theorem dump_bigRequest {id : Bytes} (hid : ∀ b ∈ id, b = 97) (k : Nat) : (bigRequest id k).dump =
    utf8 "\x7b\"id\":\"" ++ id ++ bigMiddle ++ euros k ++ utf8 "\"\x7d\x7d" := by
  have hquote : Json.quote id = 34 :: (id ++ [34]) := by
    have hplain : id.flatMap escapeByte = id := by
      induction id with
      | nil => rfl
      | cons b id ih =>
        rw [List.flatMap_cons, hid b List.mem_cons_self, ih fun c hc => hid c (.tail _ hc)]
        rfl
    rw [Json.quote, escape_of_valid (Utf8.valid_of_ascii fun b hb => hid b hb ▸ by decide), hplain]
  have hx : Json.quote (euros k) = 34 :: (euros k ++ [34]) := by
    have hge : ∀ b ∈ euros k, 0x80 ≤ b := by
      intro b hb
      obtain ⟨l, hl, hb⟩ := List.mem_flatten.1 hb
      have hall : ∀ b ∈ ([0xE2, 0x82, 0xAC] : Bytes), 0x80 ≤ b := by decide +kernel
      rw [List.eq_of_mem_replicate hl] at hb
      exact hall b hb
    rw [Json.quote, escape_of_valid (valid_euros _), flatMap_escapeByte_of_ge hge]
  have hkeys : Json.quote "id" = utf8 "\"id\"" ∧ Json.quote "method" = utf8 "\"method\"" ∧
      Json.quote "params" = utf8 "\"params\"" ∧ Json.quote "x" = utf8 "\"x\"" ∧
      Json.quote "interface.list" = utf8 "\"interface.list\"" := by decide
  obtain ⟨h₁, h₂, h₃, h₄, h₅⟩ := hkeys
  have hmiddle : bigMiddle = 34 :: 44 :: (utf8 "\"method\"" ++ 58 :: (utf8 "\"interface.list\"" ++
      44 :: (utf8 "\"params\"" ++ 58 :: 123 :: (utf8 "\"x\"" ++ [58, 34])))) := by decide
  have hfirst : utf8 "\x7b\"id\":\"" = 123 :: (utf8 "\"id\"" ++ [58, 34]) := by decide
  have hlast : utf8 "\"\x7d\x7d" = [34, 125, 125] := by decide
  simp only [bigRequest, Json.dump, Json.dumpMembers, h₁, h₂, h₃, h₄, h₅, hquote, hx, hmiddle, hfirst,
    hlast, List.append_assoc, List.cons_append, List.nil_append]

/-- It is read back as it was written. -/
theorem good_bigRequest {strtod : Bytes → Option Double} {id : Bytes} (hid : ∀ b ∈ id, b = 97)
    (k : Nat) : Json.Good strtod (bigRequest id k) := by
  have hvalid : Utf8.Valid id := Utf8.valid_of_ascii fun b hb => hid b hb ▸ by decide
  have hkeys : Utf8.Valid "id" ∧ Utf8.Valid "method" ∧ Utf8.Valid "params" ∧ Utf8.Valid "x" ∧
      Utf8.Valid "interface.list" := by decide
  obtain ⟨h₁, h₂, h₃, h₄, h₅⟩ := hkeys
  have hx : Json.Good strtod (.obj [("x", .str (euros k))]) := by
    refine (Json.good_obj _).2 ⟨List.pairwise_singleton _ _, fun kv hkv => ?_⟩
    rw [List.mem_singleton.1 hkv]
    exact ⟨h₄, valid_euros k⟩
  have hsorted : [utf8 "id", utf8 "method", utf8 "params"].Pairwise (· < ·) := by decide
  refine (Json.good_obj _).2 ⟨List.pairwise_map.1 hsorted, fun kv hkv => ?_⟩
  simp only [List.mem_cons, List.not_mem_nil, or_false] at hkv
  rcases hkv with rfl | rfl | rfl
  · exact ⟨h₁, hvalid⟩
  · exact ⟨h₂, h₅⟩
  · exact ⟨h₃, hx⟩

/-- Such a request passes `ParseRequest`. -/
theorem parseRequest_bigRequest (env : Env) {id : Bytes} (hid : ∀ b ∈ id, b = 97) (hne : id ≠ [])
    (hlen : id.length ≤ 96) :
    parseRequest env (bigRequest id 87000).dump = .ok (bigRequest id 87000) := by
  have hlength : (bigRequest id 87000).dump.length ≤ Limits.frameBytes := by
    have hpieces : (utf8 "\x7b\"id\":\"").length = 7 ∧ bigMiddle.length = 43 ∧
        (utf8 "\"\x7d\x7d").length = 3 ∧ Limits.frameBytes = 262144 := by decide
    obtain ⟨h₁, h₂, h₃, h₄⟩ := hpieces
    rw [dump_bigRequest hid, List.length_append, List.length_append, List.length_append,
      List.length_append, length_euros, h₁, h₂, h₃, h₄]
    omega
  have hparse : Json.parse env.strtod (bigRequest id 87000).dump = some (bigRequest id 87000) :=
    Json.parse_dump (good_bigRequest hid 87000)
  have hdepth : (bigRequest id 87000).depth ≤ 32 := by
    rw [bigRequest]
    simp [Json.depth, Json.depth.depthMembers]
  have htext : isIdText id = true := by
    simp only [isIdText, Bool.and_eq_true, Bool.not_eq_true', List.isEmpty_eq_false_iff,
      decide_eq_true_eq, List.all_eq_true]
    exact ⟨⟨hne, hlen⟩, fun b hb => hid b hb ▸ by decide⟩
  unfold parseRequest
  rw [if_neg (not_lt.2 hlength), checkNesting_dump hdepth, hparse, bigRequest]
  generalize euros 87000 = e
  have hfind : ∀ v : Json, Json.find "id" [("id", .str id), ("method", .str "interface.list"), ("params", v)] =
        some (.str id) ∧
      Json.find "method" [("id", .str id), ("method", .str "interface.list"), ("params", v)] =
        some (.str "interface.list") ∧
      Json.find "params" [("id", .str id), ("method", .str "interface.list"), ("params", v)] = some v ∧
      Json.find "params_ref" [("id", .str id), ("method", .str "interface.list"), ("params", v)] =
        none := fun _ => ⟨rfl, rfl, rfl, rfl⟩
  obtain ⟨h₁, h₂, h₃, h₄⟩ := hfind (.obj [("x", .str e)])
  simp [h₁, h₂, h₃, h₄, isId, htext, Status.ok, Json.str?, Json.contains]

/-- The `n`-th of these requests. -/
def bigId (n : Nat) : Bytes := List.replicate (n + 1) 97

/-- The session of the client. -/
def sampleSession : Session := ⟨sampleSite.randomId 0, "c1", "r1", 4600⟩

/-- The worker is busy, nothing else waits, and `n` of these requests are retained. -/
structure Loaded (n : Nat) (g : Gateway) : Prop where
  ready : g.ready = true
  connected : g.connected = true
  owner : g.owner = some sampleSite.owner
  future : g.future.any (fun task => task.outcome.isNone) = true
  sessions : g.sessions = [sampleSession]
  now : g.uploads.now = 1000 ∧ g.lastCleanup = 1000
  register : (g.redis .register).entries = []
  requests : (g.redis sampleRequests).entries = []
  ids : ∀ j ∈ g.jobs, j.id = "b" ∨ j.id.length ≤ n
  states : ∀ j ∈ g.jobs, j.state ≠ .done
  count : g.jobs.length = n + 1
  retained : g.retained ≤ 1000 + 87200 * n
  bytes : 261000 * n ≤ g.retainedBytes

/-- The row of a request that was just admitted. -/
def admitted (site : Site) (sid : Bytes) (request : Json) (now : Nat) : Job where
  sid := sid
  id := idOf request
  body := request.dump
  path := site.spoolPath sid (idOf request)
  expires := now + Limits.leaseSeconds

/-- A turn while the worker is busy and no job is done: the one request that waits is journaled. -/
theorem total_turn {w : World} {g : Gateway} {session : Session} {entry : Entry} {request : Json}
    (hconnected : g.connected = true) (howner : g.owner = some w.toSite.owner)
    (hfuture : g.future.any (fun task => task.outcome.isNone) = true)
    (hsessions : g.sessions = [session]) (hlive : g.uploads.now < session.expires)
    (hlast : g.lastCleanup = g.uploads.now) (hregister : (g.redis .register).entries = [])
    (hentry : (g.redis (.requests session.client session.sid)).entries = [entry])
    (hrequest : parseRequest w.env (body entry) = .ok request)
    (hmethod : methodOf request = utf8 "interface.list")
    (hfree : ∀ j ∈ g.jobs, j.id ≠ idOf request) (hcount : g.jobs.length < Limits.jobsPerSession)
    (hroom : g.retained + request.dump.length ≤ 16 * 1024 * 1024)
    (hstates : ∀ j ∈ g.jobs, j.state ≠ .done) :
    (turn w.toSite).total {} g = some ((), { g.setStream (.requests session.client session.sid)
        ((g.redis (.requests session.client session.sid)).delete entry.id) with
      jobs := g.jobs ++ [admitted w.toSite session.sid request g.uploads.now]
      log := .inserted session.sid (idOf request) :: g.log }) := by
  obtain ⟨task, htask, houtcome⟩ := (Option.any_eq_true _ _).1 hfuture
  rw [Option.isNone_iff_eq_none] at houtcome
  have hworker : completeWorker.total ({} : Chance) g = some ((), g) := by
    simp [completeWorker, htask, houtcome]
  have hlink : connect.total ({} : Chance) g = some (true, g) := by
    simp [connect, hconnected]
  have hown : (ownNamespace w.toSite).total ({} : Chance) g = some (true, g) := by
    simp [ownNamespace, command, hconnected, howner]
  have hreg : (Gateway.register w.toSite).total ({} : Chance) g = some ((), g) := by
    simp [Gateway.register, readFirst, command, hconnected, hregister]
  have hjob : g.jobAt session.sid (idOf request) = none := by
    refine List.find?_eq_none.2 fun j hj his => hfree j hj (of_decide_eq_true his).2
  have hof : (g.jobsOf session.sid).length < Limits.jobsPerSession :=
    (List.length_filter_le _ _).trans_lt hcount
  have hother : methodOf request ≠ utf8 "api.replay" ∧ methodOf request ≠ utf8 "transfer.chunk" := by
    rw [hmethod]
    decide
  have hquota : (overQuota session.sid request.dump).total ({} : Chance) g = some (false, g) := by
    simp [overQuota, not_le.2 hof, hroom]
  have hinsert : ∀ job : Job, job.sid = session.sid → job.id = idOf request →
      (insertJob job).total ({} : Chance) g = some ((), { g with
        jobs := g.jobs ++ [job], log := .inserted job.sid job.id :: g.log }) := by
    intro job hsid hid
    have hnew : ¬ ∃ j ∈ g.jobs, j.Is job.sid job.id := by
      rintro ⟨j, hj, his⟩
      exact hfree j hj (his.2.trans hid)
    have hknown : ¬ ∀ s ∈ g.sessions, ¬ s.sid = job.sid := by
      rw [hsessions]
      exact fun h => h session List.mem_cons_self hsid.symm
    simp [insertJob, eq_false hnew, eq_false hknown]
  have hjournal : (journal w.toSite session.sid request).total ({} : Chance) g = some ({}, { g with
      jobs := g.jobs ++ [admitted w.toSite session.sid request g.uploads.now],
      log := .inserted session.sid (idOf request) :: g.log }) := by
    simp [journal, hjob, hother.1, hquota, clock, hinsert, admitted]
  have hreceive : (receive w.toSite session).total ({} : Chance) g = some ((),
      { g.setStream (.requests session.client session.sid)
        ((g.redis (.requests session.client session.sid)).delete entry.id) with
      jobs := g.jobs ++ [admitted w.toSite session.sid request g.uploads.now],
      log := .inserted session.sid (idOf request) :: g.log }) := by
    simp [receive, readFirst, command, hconnected, hentry, hrequest, isChunk, hother.2, hjournal,
      Status.ok, remove, setStream]
  have hnone : (g.jobs ++ [admitted w.toSite session.sid request g.uploads.now]).find? (fun j =>
      decide (j.sid = session.sid ∧ j.state = .done ∧ j.offset < j.size)) = none := by
    refine List.find?_eq_none.2 fun j hj hdone => ?_
    have hdone' := (of_decide_eq_true hdone).2.1
    rcases List.mem_append.1 hj with hj | hj
    · exact hstates j hj hdone'
    · rw [List.mem_singleton.1 hj] at hdone'
      cases hdone'
  simp only [turn, Prog.total_bind, hworker, Option.bind_some, hlink, hown, if_pos, serve, clock,
    Prog.total_read, hlast, ne_eq, not_true_eq_false, if_false, hreg, hsessions, hlive, decide_true,
    List.filter_cons_of_pos, List.filter_nil, Prog.total_forEach_cons, hreceive, deliver,
    Prog.total_forEach_nil, deliverOne, setStream, hnone, Prog.total_pure, startJob, htask,
    Option.isSome_some]

/-- Such a request has many more octets than characters. -/
theorem length_bigRequest {id : Bytes} (hid : ∀ b ∈ id, b = 97) (hlen : id.length ≤ 96) :
    Gateway.length (bigRequest id 87000).dump ≤ 87200 ∧
      261000 ≤ (bigRequest id 87000).dump.length ∧ (bigRequest id 87000).dump.length ≤ 262144 := by
  have hpieces : (utf8 "\x7b\"id\":\"").length = 7 ∧ bigMiddle.length = 43 ∧
      (utf8 "\"\x7d\x7d").length = 3 ∧ chars (utf8 "\x7b\"id\":\"") = 7 ∧ chars bigMiddle = 43 ∧
      chars (utf8 "\"\x7d\x7d") = 3 := by decide
  obtain ⟨h₁, h₂, h₃, h₄, h₅, h₆⟩ := hpieces
  have hchars : chars id ≤ id.length := List.countP_le_length
  have hlength := length_le_chars (bigRequest id 87000).dump
  rw [dump_bigRequest hid] at hlength ⊢
  rw [chars_append, chars_append, chars_append, chars_append, chars_euros, h₄, h₅, h₆] at hlength
  rw [List.length_append, List.length_append, List.length_append, List.length_append, length_euros,
    h₁, h₂, h₃]
  omega

/-- The request is journaled in a turn of its own. -/
theorem loaded_succ {n : Nat} {g : Gateway} (h : Loaded n g) (hn : n < 66) :
    ∃ t, (machine sampleWorld False).Run (g, none) (t, none) ∧ Loaded (n + 1) t := by
  have hall : ∀ b ∈ bigId n, b = 97 := fun b hb => List.eq_of_mem_replicate hb
  have hlength : (bigId n).length = n + 1 := List.length_replicate
  have hlen : (bigId n).length ≤ 96 := by omega
  have hne : bigId n ≠ [] := List.ne_nil_of_length_pos (by omega)
  obtain ⟨hshort, hlong, hframe⟩ := length_bigRequest hall hlen
  have hid : idOf (bigRequest (bigId n) 87000) = bigId n := rfl
  let entry := (g.redis sampleRequests).next [("json", (bigRequest (bigId n) 87000).dump)]
  let added := (g.redis sampleRequests).add [("json", (bigRequest (bigId n) 87000).dump)]
  let u := { g.setStream sampleRequests added with log := .appended sampleRequests entry :: g.log }
  have happend : (machine sampleWorld False).Run (g, none) (u, none) :=
    .single (.env (.append rfl _))
  have hentries : (u.redis sampleRequests).entries = [entry] := by
    refine (congrArg Stream.entries (redis_setStream_self g sampleRequests added)).trans ?_
    change (g.redis sampleRequests).entries ++ [entry] = [entry]
    rw [h.requests, List.nil_append]
  have hother : Key.register ≠ sampleRequests := by decide
  have hregister : (u.redis .register).entries = [] :=
    (congrArg Stream.entries (redis_setStream_of_ne hother g added)).trans h.register
  have hparse := parseRequest_bigRequest sampleWorld.env hall hne hlen
  have hretained := h.retained
  have hturn := @total_turn sampleWorld u sampleSession entry (bigRequest (bigId n) 87000) h.connected
    h.owner h.future h.sessions (by rw [show u.uploads.now = 1000 from h.now.1]; decide) (h.now.2.trans h.now.1.symm) hregister
    hentries hparse rfl ?_ ?_ ?_ h.states
  · refine ⟨_, happend.trans (Machine.run_total (.inr ⟨h.ready, .inl rfl⟩) hturn), ?_⟩
    let job := admitted sampleSite (sampleSite.randomId 0) (bigRequest (bigId n) 87000) u.uploads.now
    have hjob : ∀ j ∈ g.jobs ++ [job], j ∈ g.jobs ∨ j = job := fun j hj =>
      (List.mem_append.1 hj).imp_right List.mem_singleton.1
    exact {
      ready := h.ready
      connected := h.connected
      owner := h.owner
      future := h.future
      sessions := h.sessions
      now := h.now
      register := (congrArg Stream.entries (redis_setStream_of_ne hother u
        ((u.redis sampleRequests).delete entry.id))).trans hregister
      requests := by
        refine (congrArg Stream.entries (redis_setStream_self u sampleRequests
          ((u.redis sampleRequests).delete entry.id))).trans ?_
        change (u.redis sampleRequests).entries.filter (·.id ≠ entry.id) = []
        rw [hentries]
        simp
      ids := by
        intro j hj
        rcases hjob j hj with hold | rfl
        · exact (h.ids j hold).imp_right fun hle => hle.trans (Nat.le_succ n)
        · exact .inr hlength.le
      states := by
        intro j hj
        rcases hjob j hj with hold | rfl
        · exact h.states j hold
        · exact fun hdone => by cases hdone
      count := by
        change (g.jobs ++ [job]).length = _
        rw [List.length_append, h.count, List.length_singleton]
      retained := by
        change ((g.jobs ++ [job]).map fun j => Gateway.length j.body).sum ≤ _
        rw [List.map_append, List.sum_append, List.map_singleton, List.sum_singleton]
        change g.retained + Gateway.length (bigRequest (bigId n) 87000).dump ≤ _
        omega
      bytes := by
        have hbytes := h.bytes
        change _ ≤ ((g.jobs ++ [job]).map fun j => j.body.length).sum
        rw [List.map_append, List.sum_append, List.map_singleton, List.sum_singleton]
        change _ ≤ g.retainedBytes + (bigRequest (bigId n) 87000).dump.length
        omega }
  · intro j hj heq
    rw [hid] at heq
    rcases h.ids j hj with hb | hle
    · rw [hb] at heq
      have hfirst : (98 : UInt8) ∈ bigId n := heq ▸ List.mem_singleton_self _
      exact absurd (hall 98 hfirst) (by decide)
    · rw [heq, hlength] at hle
      omega
  · exact h.count.trans_lt (by change n + 1 < 128; omega)
  · change g.retained + _ ≤ _
    omega

/-- A session, and one request of it that the worker has. -/
def sampleBusy : List Event :=
  [.recover, .append .register sampleRegistration, .turn,
    .append sampleRequests (sampleRequest "b" "interface.list"), .turn]

/-- The worker has a request, and nothing is retained yet. -/
theorem loaded_busy : ∃ g, (machine sampleWorld False).Reachable (g, none) ∧ Loaded 0 g := by
  have hscript : (script sampleWorld sampleBusy { uploads := { now := 1000 } }).any (fun g => decide
      (g.ready = true ∧ g.connected = true ∧ g.owner = some sampleSite.owner ∧
        g.future.any (fun task => task.outcome.isNone) = true ∧ g.sessions = [sampleSession] ∧
        (g.uploads.now = 1000 ∧ g.lastCleanup = 1000) ∧ (g.redis .register).entries = [] ∧
        (g.redis sampleRequests).entries = [] ∧ (∀ j ∈ g.jobs, j.id = utf8 "b" ∨ j.id.length ≤ 0) ∧
        (∀ j ∈ g.jobs, j.state ≠ .done) ∧ g.jobs.length = 1 ∧ g.retained ≤ 1000)) = true := by
    decide +kernel
  obtain ⟨g, hg, hloaded⟩ := (Option.any_eq_true _ _).1 hscript
  obtain ⟨h₁, h₂, h₃, h₄, h₅, h₆, h₇, h₈, h₉, h₁₀, h₁₁, h₁₂⟩ := of_decide_eq_true hloaded
  refine ⟨g, reachable_script (by decide) (by decide) ?_ hg,
    ⟨h₁, h₂, h₃, h₄, h₅, h₆, h₇, h₈, h₉, h₁₀, h₁₁, h₁₂, Nat.zero_le _⟩⟩
  intro request response hmem
  simp [sampleBusy] at hmem

/-- **The retained request budget fails**: 65 requests of 87000 characters of three octets each are
admitted. -/
theorem retained_requests_multibyte : ¬ ∀ (w : World) x, (machine w False).Reachable x →
    x.1.retainedBytes ≤ 16 * 1024 * 1024 := by
  intro hbudget
  have hloaded : ∀ n ≤ 65, ∃ g, (machine sampleWorld False).Reachable (g, none) ∧ Loaded n g := by
    intro n
    induction n with
    | zero => exact fun _ => loaded_busy
    | succ n ih =>
      intro hn
      obtain ⟨g, ⟨s, hs, hrun⟩, hg⟩ := ih (Nat.le_of_succ_le hn)
      obtain ⟨t, hrun', ht⟩ := loaded_succ hg (by omega)
      exact ⟨t, ⟨s, hs, hrun.trans hrun'⟩, ht⟩
  obtain ⟨g, hreach, hg⟩ := hloaded 65 le_rfl
  have hle := hbudget sampleWorld (g, none) hreach
  have hbytes := hg.bytes
  change g.retainedBytes ≤ _ at hle
  omega

end Gateway

end VppJson
