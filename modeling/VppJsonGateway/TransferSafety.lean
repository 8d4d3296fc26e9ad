import VppJsonGateway.TransferCalls

/-!
# Transfers over whole runs

A transfer has the octets it was sent, and a digest it was checked against, after any interleaving
of calls, failures, crashes and restarts. A call that is refused leaves the files as they were.
-/

namespace VppJson

open Lib

namespace Uploads

section

variable {env : Env} {lost : Prop} {u u' u'' : Uploads}

/-! ## Calls that are refused -/

/-- The end of a program of the manager, whatever it does on the way. -/
abbrev Ends {α : Type} (Q : α → Uploads → Prop) (p : Prog Uploads Answer α) (u : Uploads) : Prop :=
  p.Follows Waits (fun _ _ => True) (fun _ => True) Q u

/-- The result is no refusal but for an error of the file system. -/
def Storage {α : Type} : Except Status α → Prop
  | .ok _ => True
  | .error status => status.code = utf8 "storage_error"

/-- `WriteAtomic` fails with an error of the file system only. -/
theorem ends_writeAtomic {target temporary : FileName} {text : Bytes} {events : List Event} :
    Ends (fun status _ => status.ok = true ∨ status.code = utf8 "storage_error")
      (writeAtomic target temporary text events) u := by
  refine Prog.Follows.seq (Q := fun _ _ => True) (Prog.follows_trivial fun _ _ => trivial) ?_
  intro opened t _
  cases opened with
  | false => exact .inr rfl
  | true =>
  refine Prog.Follows.seq (Q := fun _ _ => True) (Prog.follows_trivial fun _ _ => trivial) ?_
  intro written t _
  refine Prog.Follows.seq (Q := fun _ _ => True) (Prog.follows_trivial fun _ _ => trivial) ?_
  intro synced t _
  refine Prog.Follows.seq (Q := fun _ _ => True) (Prog.follows_trivial fun _ _ => trivial) ?_
  intro closed t _
  refine Prog.Follows.seq (Q := fun _ _ => True) (Prog.follows_trivial fun _ _ => trivial) ?_
  intro renamed t _
  cases renamed with
  | false => exact .inr rfl
  | true =>
  refine Prog.Follows.seq (Q := fun _ _ => True) (Prog.follows_trivial fun _ _ => trivial) ?_
  intro dir t _
  refine Prog.Follows.seq (Q := fun _ _ => True) (Prog.follows_trivial fun _ _ => trivial) ?_
  intro ok t _
  cases ok with
  | false => exact .inr rfl
  | true => exact .inl rfl

/-- `Save` fails with an error of the file system only. -/
theorem ends_save {id stem : Bytes} {m : Manifest} {events : List Event} :
    Ends (fun r _ => Storage r) (save id stem m events) u := by
  refine Prog.Follows.seq ends_writeAtomic ?_
  intro status t hstatus
  cases hok : status.ok with
  | true => trivial
  | false =>
    rcases hstatus with h | h
    · rw [hok] at h
      cases h
    · exact h

/-- A refusal, other than for the file system, comes before anything was written. -/
def Refuses (u : Uploads) (r : Except Status Json) (t : Uploads) : Prop :=
  Storage r ∨ t.files = u.files

/-- A `chunk` that is refused has written nothing. -/
theorem ends_handleChunk {id stem : Bytes} {m : Manifest} {params : Json} {t : Uploads}
    (hfiles : t.files = u.files) :
    Ends (Refuses u) (handleChunk env id stem m params) t := by
  unfold handleChunk
  split
  · exact .inr hfiles
  simp only
  split_ifs
  · exact .inl trivial
  · exact .inr hfiles
  · exact .inr hfiles
  · exact .inr hfiles
  refine Prog.Follows.seq (Q := fun _ _ => True) (Prog.follows_trivial fun _ _ => trivial) ?_
  intro opened t' _
  cases opened with
  | false => exact .inl rfl
  | true =>
  refine Prog.Follows.seq (Q := fun _ _ => True) (Prog.follows_trivial fun _ _ => trivial) ?_
  intro written t' _
  cases written with
  | false => exact .inl rfl
  | true => exact ends_save.mono fun _ _ h => .inl h

/-- A `commit` that is refused has written nothing. -/
theorem ends_handleCommit {id stem : Bytes} {m : Manifest} {params : Json} {t : Uploads}
    (hfiles : t.files = u.files) :
    Ends (Refuses u) (handleCommit env id stem m params) t := by
  unfold handleCommit
  split
  · exact .inr hfiles
  split
  · exact .inr hfiles
  refine Prog.Follows.seq (Q := fun _ t' => t'.files = u.files)
    (Prog.Follows.read (fun _ => trivial) fun t' ht _ => ht.files.trans hfiles) ?_
  intro digest t' hfiles'
  split_ifs
  · exact .inr hfiles'
  · exact ends_save.mono fun _ _ h => .inl h

/-- A `begin` that is refused has written nothing. -/
theorem ends_handleBegin {session id stem : Bytes} {params : Json} :
    Ends (Refuses u) (handleBegin env session id stem params) u := by
  unfold handleBegin
  split
  · exact .inr rfl
  refine Prog.Follows.seq (Q := fun _ t => t.files = u.files)
    (Prog.Follows.read (fun _ => trivial) fun t ht _ => ht.files) ?_
  intro r t hfiles
  cases r with
  | some m =>
    simp only
    split_ifs
    · exact .inr hfiles
    · exact .inl trivial
  | none =>
    refine Prog.Follows.seq (Q := fun _ t => t.files = u.files)
      (Prog.Follows.step fun t' ht _ _ => ⟨trivial, ht.files.trans hfiles⟩) ?_
    intro listed t' hfiles'
    cases listed with
    | none => exact .inl rfl
    | some quota =>
    obtain ⟨sum, count⟩ := quota
    simp only
    split_ifs
    · exact .inr hfiles'
    refine Prog.Follows.seq ends_writeAtomic ?_
    intro status a hstatus
    cases hok : status.ok with
    | false =>
      rcases hstatus with h | h
      · rw [hok] at h
        cases h
      · exact .inl h
    | true =>
    rw [if_neg (by decide)]
    refine Prog.Follows.seq (Q := fun _ _ => True) (Prog.follows_trivial fun _ _ => trivial) ?_
    intro now b _
    exact ends_save.mono fun _ _ h => .inl h

/-- `Load` writes nothing. -/
theorem ends_load {stem : Bytes} : Ends (fun _ t => t.files = u.files) (load env stem) u := by
  refine Prog.Follows.seq (Q := fun _ t => t.files = u.files)
    (Prog.Follows.read (fun _ => trivial) fun t ht _ => ht.files) ?_
  intro r t hfiles
  cases r with
  | none => exact hfiles
  | some m =>
    refine Prog.Follows.seq (Q := fun _ t => t.files = u.files)
      (Prog.Follows.read (fun _ => trivial) fun t' ht _ => ht.files.trans hfiles) ?_
    intro now t' hfiles'
    split_ifs <;> exact hfiles'

/-- `Resolve` writes nothing. -/
theorem ends_resolve {session id : Bytes} :
    Ends (fun _ t => t.files = u.files) (resolve env session id) u := by
  refine Prog.Follows.seq ends_load ?_
  intro r t hfiles
  cases r with
  | error status => exact hfiles
  | ok m =>
    simp only
    split_ifs
    · exact hfiles
    · exact hfiles
    refine Prog.Follows.seq (Q := fun _ t => t.files = u.files)
      (Prog.Follows.read (fun _ => trivial) fun t' ht _ => ht.files.trans hfiles) ?_
    intro text t' hfiles'
    cases parseRequest env
        (utf8 "\x7b\"id\":\"transfer\",\"method\":\"resolve\",\"params\":" ++ text ++ utf8 "\x7d")
        (Limits.paramsBytes + 128) with
    | error status => exact hfiles'
    | ok request => exact hfiles'

/-- A call that is refused, other than for the file system, has changed no file. -/
theorem ends_handle {session method : Bytes} {params : Json} :
    Ends (Refuses u) (handle env session method params) u := by
  unfold handle
  split
  · split
    · exact .inr rfl
    simp only
    split
    · exact ends_handleBegin
    refine Prog.Follows.seq ends_load ?_
    intro r t hfiles
    cases r with
    | error status => exact .inr hfiles
    | ok m =>
      simp only
      split_ifs
      · exact ends_handleChunk hfiles
      · exact ends_handleCommit hfiles
      · exact .inr hfiles
      · exact ends_save.mono fun _ _ h => .inl h
      · exact .inr hfiles
  · exact .inr rfl

end

/-! ## Runs -/

open Classical in
/-- The answers of a system where removing a file does not fail. -/
noncomputable def removing (f : Answer → Uploads → Uploads) (c : Answer) : Answer :=
  if ∃ name, f = removal name then .ok else c

/-- A removal succeeds in such a system. -/
theorem removing_removal (f : FileName) (c : Answer) : removing (removal f) c = .ok :=
  if_pos ⟨f, rfl⟩

/-- The calls the gateway makes of the manager, from any session. -/
inductive Call where
  | handle (session : { s : Bytes // isIdText s = true }) (method : Bytes) (params : Json)
  | resolve (session id : Bytes)
  | expire

/-- The program of a call, its result dropped. -/
def Call.program (env : Env) : Call → Prog Uploads Answer Unit
  | .handle session method params => do
    let _ ← Uploads.handle env session method params
  | .resolve session id => do
    let _ ← Uploads.resolve env session id
  | .expire => Uploads.expire env

/-- The manager in operation: calls one after the other, on a directory that starts empty,
while time passes; a crash drops the running call and leaves the files. -/
def machine (env : Env) : Machine Uploads Answer where
  init u := u.files = ∅ ∧ u.log = [] ∧ u.now + 600 < 2 ^ 63
  start _ p := ∃ call : Call, p = call.program env
  env := Waits
  crash u := u

/-- The same manager where removing a file does not fail. -/
noncomputable def reliable (env : Env) : Machine Uploads Answer :=
  { machine env with start := fun _ p => ∃ call : Call, p = (call.program env).confine removing }

/-- Every call keeps the transfers sound, in an environment that loses no file, or may. -/
theorem keeps_program {g : (Answer → Uploads → Uploads) → Answer → Answer}
    (hg : lost ∨ ∀ f c, g (removal f) c = .ok) (call : Call) :
    Keeps env lost (fun _ _ => True) ((call.program env).confine g) u := by
  cases call with
  | handle session method params =>
    exact Prog.Follows.confine
      (Prog.Follows.seq (keeps_handle (valid_of_isIdText session.2)) fun _ _ _ => trivial)
  | resolve session id =>
    exact Prog.Follows.confine (Prog.Follows.seq keeps_resolve fun _ _ _ => trivial)
  | expire => exact keeps_expire hg

/-- A directory without transfers is sound. -/
theorem sound_of_init (h : (machine env).init u) : Sound env u := by
  obtain ⟨hfiles, hlog, hnow⟩ := h
  have hnone : ∀ stem, (u.transfer env stem).manifest = none := by
    intro stem
    simp [transfer, readManifest, hfiles]
  refine ⟨hnow, fun stem => ⟨?_, ?_, ?_⟩⟩
  · intro m hm
    rw [hnone] at hm
    cases hm
  · intro m hm
    rw [hnone] at hm
    cases hm
  · intro m d hm
    rw [hnone] at hm
    cases hm

/-- Every step of the manager is a move, on any file system. -/
theorem machine_sound (env : Env) :
    (machine env).Sound Waits (Steps env True) (Sound env) (fun _ => True) where
  refl := Waits.refl
  trans := Waits.trans
  env h := h
  init h := ⟨sound_of_init h, trivial⟩
  keep hs h := h.sound hs
  idle _ _ _ := trivial
  own hs h := h.sound hs
  crash hs := ⟨hs, trivial⟩
  start := by
    rintro u p - - ⟨call, rfl⟩
    rw [← Prog.confine_id (call.program env)]
    exact keeps_program (.inl trivial) call

/-- The same where removing a file does not fail: then no transfer is lost. -/
theorem reliable_sound (env : Env) :
    (reliable env).Sound Waits (Steps env False) (Sound env) (fun _ => True) where
  refl := Waits.refl
  trans := Waits.trans
  env h := h
  init h := ⟨sound_of_init h, trivial⟩
  keep hs h := h.sound hs
  idle _ _ _ := trivial
  own hs h := h.sound hs
  crash hs := ⟨hs, trivial⟩
  start := by
    rintro u p - - ⟨call, rfl⟩
    exact keeps_program (.inr removing_removal) call

/-- A committed transfer of the one state is in the other, unless it has expired there. -/
structure Preserves (env : Env) (u u' : Uploads) : Prop where
  now : u.now ≤ u'.now
  same : ∀ {stem m}, (u.transfer env stem).manifest = some m → m.committed = true →
    u'.now < m.expires → (u'.transfer env stem).manifest = some m ∧
      (u'.transfer env stem).data = (u.transfer env stem).data

/-- What a run leaves of the transfers, by induction on its steps. -/
theorem preserves_run {env : Env} {x y : Uploads × Option (Prog Uploads Answer Unit)}
    (hx : (machine env).Reachable x) (hrun : (machine env).Run x y) :
    Preserves env x.1 y.1 := by
  refine (machine_sound env).run_rel (K := Preserves env) ?_ ?_ ?_ ?_ ?_
    ((machine_sound env).reachable hx) hrun
  · exact fun u => ⟨le_rfl, fun hm _ _ => ⟨hm, rfl⟩⟩
  · rintro a b c ⟨hn, hab⟩ ⟨hn', hbc⟩
    refine ⟨hn.trans hn', fun hm hc ht => ?_⟩
    obtain ⟨hm', hd⟩ := hab hm hc (hn'.trans_lt ht)
    obtain ⟨hm'', hd'⟩ := hbc hm' hc ht
    exact ⟨hm'', hd'.trans hd⟩
  · intro a b _ h
    refine ⟨h.now, fun hm _ _ => ?_⟩
    rw [h.near.1]
    exact ⟨hm, rfl⟩
  · rintro a b _ ⟨hnow, hstep⟩
    refine ⟨hnow.ge, fun {stem m} hm hc ht => ?_⟩
    rw [hnow] at ht
    rcases hstep with hsame | ⟨p, hmove, hother⟩
    · rw [hsame]
      exact ⟨hm, rfl⟩
    · by_cases hp : stem = p
      · subst hp
        exact hmove.keeps hm hc ht
      · rw [hother stem hp]
        exact ⟨hm, rfl⟩
  · exact fun _ => ⟨le_rfl, fun hm _ _ => ⟨hm, rfl⟩⟩

/-- **Integrity of transfers.** In every state of every run: a manifest that has not expired
counts the chunks accepted for it, one for each sequence number from zero on, and the data file
starts with their data in that order; once it is committed the file is of the declared length
and digest, and both stay as they are in every later state until the transfer expires. A call
that is refused for another reason than the file system changes no file, and resolving a transfer
changes none either way. -/
theorem transfer_integrity {env : Env} {x : Uploads × Option (Prog Uploads Answer Unit)}
    (hx : (machine env).Reachable x) :
    (∀ stem m, readManifest env x.1 stem = some m → x.1.now < m.expires →
      ∃ d, x.1.readData stem = some d ∧
        (accepted stem x.1.log).map Prod.fst = List.range m.nextSeq ∧
        m.bytes ≤ m.total ∧ m.bytes ≤ d.length ∧
        d.take m.bytes = ((accepted stem x.1.log).map Prod.snd).flatten ∧
        (m.committed = true → d.length = m.total ∧ env.sha256 d = m.sha256)) ∧
    (∀ stem m, readManifest env x.1 stem = some m → m.committed = true →
      ∀ y, (machine env).Run x y → y.1.now < m.expires →
        readManifest env y.1 stem = some m ∧ y.1.readData stem = x.1.readData stem) ∧
    (∀ session method params status u,
      (handle env session method params).Runs Waits x.1 (.error status) u →
      status.code ≠ utf8 "storage_error" → u.files = x.1.files) ∧
    (∀ session id result u, (resolve env session id).Runs Waits x.1 result u →
      u.files = x.1.files) := by
  have hsound := ((machine_sound env).reachable hx).1
  refine ⟨?_, ?_, ?_, ?_⟩
  · intro stem m hm hnow
    cases hd : x.1.readData stem with
    | none =>
      have hexpired := (hsound.2 stem).present hm hd
      omega
    | some d =>
      have hdesc := (hsound.2 stem).describes hm hd
      have hbytes := ((hsound.2 stem).valid hm).bytes
      refine ⟨d, rfl, hdesc.count, hbytes, hdesc.lower, hdesc.content, fun hc => ?_⟩
      obtain ⟨hfull, hhash⟩ := hdesc.committed hc
      have hlower := hdesc.lower
      have hupper := hdesc.upper
      exact ⟨by omega, hhash⟩
  · intro stem m hm hc y hrun hnow
    exact (preserves_run hx hrun).same hm hc hnow
  · intro session method params status u hruns hcode
    have hstable : ∀ (r : Except Status Json) (s t : Uploads), Waits s t → Refuses x.1 r s →
        Refuses x.1 r t := by
      rintro r s t hst (h | h)
      · exact .inl h
      · exact .inr (hst.files.trans h)
    rcases ends_handle.runs hruns Waits.refl Waits.trans hstable with h | h
    · exact absurd h hcode
    · exact h
  · intro session id result u hruns
    exact ends_resolve.runs hruns Waits.refl Waits.trans fun _ _ _ hst hfiles => hst.files.trans hfiles

/-! ## A transfer of two octets -/

/-- The digests of the texts the transfer below hashes. -/
def sampleEnv : Env where
  strtod _ := none
  digest data :=
    if data = utf8 "hi" then ⟨[0x8F, 0x43, 0x43, 0x46, 0x64, 0x8F, 0x6B, 0x96, 0xDF, 0x89, 0xDD, 0xA9, 0x01, 0xC5,
    0x17, 0x6B, 0x10, 0xA6, 0xD8, 0x39, 0x61, 0xDD, 0x3C, 0x1A, 0xC8, 0x8B, 0x59, 0xB2,
    0xDC, 0x32, 0x7A, 0xA4], rfl⟩
    else if data = utf8 "s1:t1" then ⟨[0x5A, 0x54, 0xAA, 0xF3, 0x3C, 0xB1, 0xF9, 0xE9, 0x6F, 0x12, 0x44, 0xEF, 0x95, 0xD6,
    0xC8, 0x23, 0xFC, 0x91, 0xE0, 0x88, 0xBA, 0x75, 0xD9, 0x6B, 0xFB, 0xEC, 0x13, 0xF1,
    0x59, 0x9F, 0x15, 0x93], rfl⟩
    else ⟨List.replicate 32 0, length_zeros⟩

/-- Calls made one after the other, with no failure. -/
def serve (env : Env) (calls : List Call) (u : Uploads) : Option Uploads :=
  calls.foldlM (fun u c => ((c.program env).exec (List.replicate 64 .ok) u).map (·.2.2)) u

/-- Calls that are served one after the other are a run. -/
theorem run_serve {env : Env} {calls : List Call} {u u' : Uploads}
    (h : serve env calls u = some u') : (machine env).Run (u, none) (u', none) := by
  induction calls generalizing u with
  | nil =>
    cases h
    exact .refl
  | cons call calls ih =>
    simp only [serve, List.foldlM_cons, Option.bind_eq_bind, Option.bind_eq_some_iff,
      Option.map_eq_some_iff] at h
    obtain ⟨_, ⟨⟨_, rest, u₁⟩, hexec, rfl⟩, hrest⟩ := h
    exact (Machine.run_exec (m := machine env) ⟨call, rfl⟩ hexec).trans (ih hrest)

/-- `transfer.begin`, one `transfer.chunk` and `transfer.commit`. -/
def sampleCalls : List Call :=
  let session : { s : Bytes // isIdText s = true } := ⟨utf8 "s1", rfl⟩
  [.handle session "transfer.begin" (Json.object [("transfer", .str "t1"), ("bytes", .uint 2),
      ("sha256", .str (sampleEnv.sha256 "hi"))]),
    .handle session "transfer.chunk" (Json.object [("transfer", .str "t1"), ("seq", .uint 0),
      ("data", .str "hi")]),
    .handle session "transfer.commit" (Json.object [("transfer", .str "t1")])]

/-- The committed transfer of a run is whole, and stays so until it expires. -/
theorem transfer_integrity_two_octets : ∃ u m, (machine sampleEnv).Reachable (u, none) ∧
    readManifest sampleEnv u (path sampleEnv "s1" "t1") = some m ∧ m.committed = true ∧
    u.now < m.expires ∧ (∃ d, u.readData (path sampleEnv "s1" "t1") = some d ∧ d.length = 2 ∧
      sampleEnv.sha256 d = sampleEnv.sha256 "hi") ∧
    ∀ y, (machine sampleEnv).Run (u, none) y → y.1.now < m.expires →
      readManifest sampleEnv y.1 (path sampleEnv "s1" "t1") = some m := by
  have hserve : (serve sampleEnv sampleCalls { now := 1000 }).isSome = true := by decide +kernel
  obtain ⟨u, hu⟩ := Option.isSome_iff_exists.1 hserve
  have hman : (serve sampleEnv sampleCalls { now := 1000 }).any (fun u =>
      (readManifest sampleEnv u (path sampleEnv "s1" "t1")).any fun m => m.committed = true ∧
        m.total = 2 ∧ m.sha256 = sampleEnv.sha256 "hi" ∧ u.now < m.expires) = true := by
    decide +kernel
  simp only [hu, Option.any_some, Option.any_eq_true, decide_eq_true_eq] at hman
  obtain ⟨m, hm, hc, htotal, hhash, hlive⟩ := hman
  have hreach : (machine sampleEnv).Reachable (u, none) :=
    ⟨{ now := 1000 }, ⟨rfl, rfl, by decide⟩, run_serve hu⟩
  obtain ⟨hfirst, hsecond, -⟩ := transfer_integrity hreach
  obtain ⟨d, hd, -, -, -, -, hcommitted⟩ := hfirst _ m hm hlive
  refine ⟨u, m, hreach, hm, hc, hlive, ⟨d, hd, ?_, ?_⟩, fun y hrun hy => ?_⟩
  · rw [(hcommitted hc).1, htotal]
  · rw [(hcommitted hc).2, hhash]
  · exact (hsecond _ m hm hc y hrun hy).1

end Uploads

end VppJson
