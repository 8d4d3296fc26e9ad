import VppJsonGateway.TransferSafety

/-!
# What a successful `transfer.begin` promises

`transfer.begin` reads the manifest of a transfer there already is without the check of its age
that every other call makes. So its success promises a transfer that `transfer.status` knows if and
only if the manifest that was there, if any, had not expired.
-/

namespace VppJson

open Lib

namespace Uploads

section

variable {env : Env} {u t : Uploads} {session id stem : Bytes} {m : Manifest}

/-! ## `transfer.status` -/

/-- The parameters of `transfer.status`. -/
def statusParams (id : Bytes) : Json := Json.object [("transfer", .str id)]

/-- What `Handle` does for `transfer.status`: it loads the manifest and saves it again. -/
theorem handle_status (env : Env) (session : Bytes) (hid : isIdText id = true) :
    handle env session "transfer.status" (statusParams id) = (do
      match ← load env (path env session id) with
      | .error status => return .error status
      | .ok manifest => save id (path env session id) manifest []) := by
  have htransfer : (statusParams id).get? "transfer" = some (.str id) := rfl
  have hsize : (statusParams id).size = 1 := rfl
  have hbegin : utf8 "transfer.status" ≠ utf8 "transfer.begin" := by decide
  have hchunk : utf8 "transfer.status" ≠ utf8 "transfer.chunk" := by decide
  have hcommit : utf8 "transfer.status" ≠ utf8 "transfer.commit" := by decide
  unfold handle
  rw [htransfer]
  refine (if_neg (by simp [hid])).trans ((if_neg hbegin).trans ?_)
  refine congrArg (load env (path env session id) >>= ·) (funext fun r => ?_)
  cases r with
  | error status => rfl
  | ok m =>
    exact (if_neg hchunk).trans ((if_neg hcommit).trans ((if_pos rfl).trans
      (if_neg (not_not.2 hsize))))

/-- What `Load` says of a manifest at one clock reading. -/
def loaded (m : Manifest) (now : Nat) : Except Status Manifest :=
  if m.expires ≤ now then .error ⟨"transfer_expired", "Start a new transfer"⟩ else .ok m

/-- Loading a manifest leaves the files, whatever the file system answers. -/
theorem load_still (hm : (u.transfer env stem).manifest = some m) :
    (load env stem).Follows Eq (fun _ _ => True) (fun _ => True)
      (fun r t => t = u ∧ r = loaded m u.now) u := by
  have hread : readManifest env u stem = some m := hm
  refine Prog.Follows.seq (Q := fun r t => t = u ∧ r = some m)
    (Prog.Follows.read (fun _ => trivial) fun t ht _ => ⟨ht.symm, by rw [← ht, hread]⟩) ?_
  rintro r t ⟨rfl, rfl⟩
  refine Prog.Follows.seq (Q := fun now t' => t' = t ∧ now = t.now)
    (Prog.Follows.read (fun _ => trivial) fun t' ht _ => ⟨ht.symm, by rw [← ht]⟩) ?_
  rintro now t' ⟨rfl, rfl⟩
  unfold loaded
  split_ifs
  · exact ⟨rfl, rfl⟩
  · exact ⟨rfl, rfl⟩

/-- What `transfer.status` answers about a manifest at one clock reading. -/
theorem status_still (hid : isIdText id = true)
    (hm : (u.transfer env (path env session id)).manifest = some m) {r : Except Status Json}
    (hrun : (handle env session "transfer.status" (statusParams id)).Runs Eq u r t) :
    (m.expires ≤ u.now → r = .error ⟨"transfer_expired", "Start a new transfer"⟩) ∧
      (u.now < m.expires → Storage r ∧ ∀ v, r = .ok v → v = reported id m) := by
  rw [handle_status env session hid] at hrun
  refine (Prog.Follows.runs_still (R := Eq) (G := fun _ _ => True) (K := fun _ => True)
    (Q := fun r _ => (m.expires ≤ u.now → r = .error ⟨"transfer_expired", "Start a new transfer"⟩) ∧
      (u.now < m.expires → Storage r ∧ ∀ v, r = .ok v → v = reported id m)) ?_ hrun
    (fun _ => rfl) trivial (fun _ _ => trivial) trivial fun _ _ => trivial).1
  refine Prog.Follows.seq (load_still hm) ?_
  rintro r t ⟨rfl, rfl⟩
  unfold loaded
  split_ifs with hexpired
  · exact ⟨fun _ => rfl, fun hlive => absurd hexpired (not_le.2 hlive)⟩
  · have hreport : (save id (path env session id) m []).Follows Waits (fun _ _ => True)
        (fun _ => True) (fun r _ => ∀ v, r = .ok v → v = reported id m) t := by
      refine Prog.Follows.seq (Q := fun _ _ => True) (Prog.follows_trivial fun _ _ => trivial) ?_
      intro status t' _
      cases hok : status.ok with
      | false => rintro v ⟨⟩
      | true =>
        rintro v ⟨⟩
        rfl
    have hboth : (save id (path env session id) m []).Follows Waits (fun _ _ => True)
        (fun _ => True) (fun r _ => Storage r ∧ ∀ v, r = .ok v → v = reported id m) t :=
      (ends_save.and hreport).guarantee fun _ _ _ => trivial
    exact (hboth.narrow fun h => h ▸ Waits.refl _).mono fun r _ h =>
      ⟨fun hle => absurd hle hexpired, fun _ => h⟩

/-! ## A file system without failures -/

/-- Where no write fails all octets are written. -/
theorem total_pwriteLoop {f : FileName} (data : Bytes) {u : Uploads} (hf : f ∈ u.files)
    (fuel : Nat) (hfuel : data.length ≤ fuel) :
    ∃ t, (pwriteLoop f data 0 fuel 0).total .ok u = some (data.length, t) ∧ f ∈ t.files := by
  obtain ⟨content, hcontent⟩ := AList.lookup_isSome.2 hf |> Option.isSome_iff_exists.1
  cases data with
  | nil =>
    refine ⟨u, ?_, hf⟩
    cases fuel with
    | zero => rfl
    | succ fuel => simp [pwriteLoop]
  | cons b data =>
    obtain ⟨fuel, rfl⟩ : ∃ k, fuel = k + 1 := ⟨fuel - 1, by simp at hfuel; omega⟩
    refine ⟨{ u with files := u.files.insert f (overwrite content 0 (b :: data)) }, ?_, by simp⟩
    have hwrite : (pwrite f (b :: data) 0).total .ok u = some ((b :: data).length,
        { u with files := u.files.insert f (overwrite content 0 (b :: data)) }) := by
      simp [pwrite, hcontent, Answer.count]
    have hrest : ∀ v : Uploads, (pwriteLoop f (b :: data) 0 fuel (b :: data).length).total .ok v =
        some ((b :: data).length, v) := by
      intro v
      cases fuel with
      | zero => rfl
      | succ fuel => simp [pwriteLoop]
    rw [pwriteLoop, if_pos (by simp)]
    simp only [List.drop_zero, Nat.add_zero, Prog.total_bind, hwrite, Option.bind_some]
    rw [if_neg (by simp), Nat.zero_add]
    exact hrest _

/-- Where nothing fails a file is replaced. -/
theorem total_writeAtomic (target temporary : FileName) (text : Bytes) (events : List Event)
    (u : Uploads) : ∃ t, (writeAtomic target temporary text events).total .ok u = some ({}, t) := by
  have hopen : (openTrunc temporary).total .ok u =
      some (true, { u with files := u.files.insert temporary [] }) := rfl
  have hmem : temporary ∈ ({ u with files := u.files.insert temporary [] } : Uploads).files := by
    simp
  obtain ⟨t, ht, hmem'⟩ := total_pwriteLoop text hmem text.length le_rfl
  have hwrite : (writeAll temporary text).total .ok
      { u with files := u.files.insert temporary [] } = some (true, t) := by
    simp [writeAll, ht]
  have hcall : ∀ v : Uploads, call.total .ok v = some (true, v) := fun _ => rfl
  have hrename : (rename temporary target events).total .ok t = some (true,
      { t with files := t.files.rename temporary target, log := events ++ t.log }) := by
    simp [rename, hmem']
  refine ⟨{ t with files := t.files.rename temporary target, log := events ++ t.log }, ?_⟩
  simp [writeAtomic, hopen, hwrite, andThen, hcall, hrename]

/-- `transfer.status` succeeds on a manifest that has not expired, where the file system does. -/
theorem status_succeeds (hid : isIdText id = true)
    (hm : (u.transfer env (path env session id)).manifest = some m) (hlive : u.now < m.expires) :
    ∃ t, (handle env session "transfer.status" (statusParams id)).Runs Eq u
      (.ok (reported id m)) t := by
  rw [handle_status env session hid]
  obtain ⟨t, ht⟩ := total_writeAtomic ⟨path env session id, .manifest⟩
    ⟨path env session id, .manifestTmp⟩ m.toJson.dump [] u
  have hread : readManifest env u (path env session id) = some m := hm
  have hload : (load env (path env session id)).total .ok u = some (.ok m, u) := by
    simp [load, hread, clock, not_le.2 hlive]
  refine ⟨t, .of_total (c := .ok) ?_⟩
  simp [hload, save, ht, Status.ok, reported]

/-! ## `transfer.begin` -/

/-- The transfer that `transfer.begin` answered about has the manifest that was asked for, and
`transfer.status` tells the same about it: whatever the file system does it fails for a failure of
that only, and it can succeed. -/
structure Usable (env : Env) (session id : Bytes) (total : Nat) (digest : Bytes) (v : Json)
    (u : Uploads) : Prop where
  manifest : ∃ m, readManifest env u (path env session id) = some m ∧ m.total = total ∧
    m.sha256 = digest
  status : ∀ r t, (handle env session "transfer.status" (statusParams id)).Runs Eq u r t →
    Storage r ∧ ∀ w, r = .ok w → w.get? "next_seq" = v.get? "next_seq" ∧
      w.get? "committed" = v.get? "committed"
  succeeds : ∃ w t, (handle env session "transfer.status" (statusParams id)).Runs Eq u (.ok w) t

/-- The size and the digest are members of the parameters. -/
theorem params_of_begin? {params : Json} {total : Nat} {digest : Bytes}
    (h : begin? params = some (total, digest)) :
    params.get? "bytes" = some (.uint total) ∧ params.get? "sha256" = some (.str digest) := by
  unfold begin? at h
  split at h
  · next total' digest' hbytes hdigest =>
    split at h
    · cases h
      exact ⟨hbytes, hdigest⟩
    · cases h
  · cases h

/-- **A successful `transfer.begin` is usable** if and only if the manifest that was there, if any,
had not expired. -/
theorem begin_usable_iff {x : Uploads × Option (Prog Uploads Answer Unit)}
    (hx : (machine env).Reachable x) (session : { s : Bytes // isIdText s = true })
    {params v : Json}
    (hbegin : (handle env session "transfer.begin" params).Runs Eq x.1 (.ok v) t) :
    ∃ id total digest, params.get? "transfer" = some (.str id) ∧
      params.get? "bytes" = some (.uint total) ∧ params.get? "sha256" = some (.str digest) ∧
      (Usable env session id total digest v t ↔
        ∀ m, readManifest env x.1 (path env session id) = some m → x.1.now < m.expires) := by
  have hsound := ((machine_sound env).reachable hx).1
  have hno : ∀ {status : Status},
      ¬ (pure (Except.error status) : Prog Uploads Answer (Except Status Json)).Runs Eq x.1
        (.ok v) t := by
    intro status hrun
    have hends : (pure (Except.error status) : Prog Uploads Answer (Except Status Json)).Follows Eq
        (fun _ _ => True) (fun _ => True) (fun r _ => r = Except.error status) x.1 := rfl
    have hok := (hends.runs_still (K := fun _ => True) hrun (fun _ => rfl) trivial
      (fun _ _ => trivial) trivial fun _ _ => trivial).1
    cases hok
  unfold handle at hbegin
  split at hbegin
  · next id htransfer =>
    split at hbegin
    · exact (hno hbegin).elim
    next hvalid =>
    have hid : isIdText id = true := Bool.not_eq_false _ ▸ hvalid
    simp only [if_true] at hbegin
    have hkeeps := @keeps_handleBegin env True x.1 session id (path env session id) params
      (valid_of_isIdText session.2)
    obtain ⟨hQ, hnow⟩ := hkeeps.runs_still (K := fun t => t.now = x.1.now) hbegin Waits.refl
      hsound (fun hs h => h.sound hs) rfl fun hK hstep => hstep.1.trans hK
    obtain ⟨m, hm⟩ := hQ v rfl
    obtain ⟨hbytes, hdigest⟩ := params_of_begin? hm.asked
    refine ⟨id, m.total, m.sha256, htransfer, hbytes, hdigest, ?_, ?_⟩
    · intro husable m' hm'
      obtain ⟨w, t', hrun⟩ := husable.succeeds
      have hsame : m = m' := by
        rcases hm.origin with horigin | ⟨hnone, -⟩
        · exact Option.some.inj (horigin.symm.trans hm')
        · cases hnone.symm.trans hm'
      by_contra hexpired
      have hle : m.expires ≤ t.now := by
        rw [hnow, hsame]
        exact not_lt.1 hexpired
      cases (status_still hid hm.stored hrun).1 hle
    · intro hlive
      have hlive' : t.now < m.expires := by
        rw [hnow]
        rcases hm.origin with horigin | ⟨-, hlow⟩
        · exact hlive m horigin
        · omega
      refine ⟨⟨m, hm.stored, rfl, rfl⟩, fun r t' hrun => ?_, ?_⟩
      · obtain ⟨hstorage, hok⟩ := (status_still hid hm.stored hrun).2 hlive'
        refine ⟨hstorage, fun w hw => ?_⟩
        rw [hok w hw, hm.tells.1, hm.tells.2]
        exact ⟨rfl, rfl⟩
      · obtain ⟨t', hrun⟩ := status_succeeds hid hm.stored hlive'
        exact ⟨_, t', hrun⟩
  · exact (hno hbegin).elim

end

/-! ## A transfer that is begun twice -/

theorem isIdText_s1 : isIdText (utf8 "s1") = true := rfl

/-- The session of the transfer below. -/
def sampleSession : { s : Bytes // isIdText s = true } := ⟨utf8 "s1", isIdText_s1⟩

/-- The parameters that begin a transfer of two octets. -/
def sampleBegin : Json :=
  Json.object [("transfer", .str "t1"), ("bytes", .uint 2),
    ("sha256", .str (sampleEnv.sha256 "hi"))]

/-- A transfer of two octets that is begun in an empty store. -/
theorem begin_usable_two_octets : ∃ u v t, (machine sampleEnv).Reachable (u, none) ∧
    (handle sampleEnv sampleSession "transfer.begin" sampleBegin).Runs Eq u (.ok v) t ∧
      Usable sampleEnv sampleSession "t1" 2 (sampleEnv.sha256 "hi") v t := by
  have hbegin : ((handle sampleEnv sampleSession "transfer.begin" sampleBegin).total .ok
      { now := 1000 }).any (fun r => r.1.toBool) = true := by
    decide +kernel
  obtain ⟨⟨r, t⟩, htotal, hok⟩ := (Option.any_eq_true _ _).1 hbegin
  cases r with
  | error status => cases hok
  | ok v =>
    have hreach : (machine sampleEnv).Reachable ({ now := 1000 }, none) :=
      ⟨_, ⟨rfl, rfl, by decide⟩, .refl⟩
    have hrun := Prog.Runs.of_total (R := Eq) htotal
    obtain ⟨id, total, digest, hid, hbytes, hdigest, hiff⟩ :=
      begin_usable_iff hreach sampleSession hrun
    cases hid
    cases hbytes
    cases hdigest
    refine ⟨_, v, t, hreach, hrun, hiff.2 fun m hm => ?_⟩
    have hnone : readManifest sampleEnv { now := 1000 } (path sampleEnv sampleSession "t1") = none :=
      rfl
    cases hnone.symm.trans hm

/-- **A successful `transfer.begin` may promise nothing**: the manifest that it found has
expired. -/
theorem begin_expired : ¬ ∀ (env : Env) x, (machine env).Reachable x →
    ∀ (session : { s : Bytes // isIdText s = true }) params v t,
      (handle env session "transfer.begin" params).Runs Eq x.1 (.ok v) t →
        ∃ id total digest, params.get? "transfer" = some (.str id) ∧
          Usable env session id total digest v t := by
  intro hlaw
  have hserve : ((serve sampleEnv sampleCalls { now := 1000 }).any fun u => decide (u.now ≤ 1600) &&
      ((handle sampleEnv sampleSession "transfer.begin" sampleBegin).total .ok
        { u with now := 1600 }).any fun r => r.1.toBool &&
          (readManifest sampleEnv r.2 (path sampleEnv sampleSession "t1")).any
            fun m => decide (m.expires ≤ r.2.now)) = true := by
    decide +kernel
  obtain ⟨u, hu, hbegin⟩ := (Option.any_eq_true _ _).1 hserve
  obtain ⟨hnow, hbegin⟩ := (Bool.and_eq_true _ _).mp hbegin
  obtain ⟨⟨r, t⟩, htotal, hboth⟩ := (Option.any_eq_true _ _).1 hbegin
  obtain ⟨hok, hexpired⟩ := (Bool.and_eq_true _ _).mp hboth
  obtain ⟨m, hm, hle⟩ := (Option.any_eq_true _ _).1 hexpired
  have htick : Waits u { u with now := 1600 } :=
    ⟨rfl, rfl, of_decide_eq_true hnow, fun _ => (by decide : 1600 + 600 < 2 ^ 63)⟩
  have hreach : (machine sampleEnv).Reachable ({ u with now := 1600 }, none) :=
    ⟨{ now := 1000 }, ⟨rfl, rfl, by decide⟩, (run_serve hu).tail (.env htick)⟩
  cases r with
  | error status => cases hok
  | ok v =>
    obtain ⟨id, total, digest, hid, husable⟩ :=
      hlaw sampleEnv _ hreach sampleSession sampleBegin v t (.of_total htotal)
    cases hid
    obtain ⟨w, t', hrun⟩ := husable.succeeds
    cases (status_still rfl hm hrun).1 (of_decide_eq_true hle)

end Uploads

end VppJson
