import VppJsonGateway.TransferSafety

/-!
# The quotas of uploads

`transfer.begin` admits a transfer by a listing of the directory; chunks, failed writes, expiry
and crashes change the files afterwards. The reservations stay within the quotas in every state
of every run, the data of a transfer stays within its reservation, and data that no manifest
reserves is empty as long as removing a file does not fail.
-/

namespace VppJson

open Lib

namespace Transfer

variable {w : Setting} {t t' : Transfer}

/-- A move reserves no more than before, or stores a manifest the quotas admit. -/
theorem Move.reserves (h : Move w t t') :
    (t'.manifest.elim 0 (·.total) ≤ t.manifest.elim 0 (·.total) ∧
      ∀ session, t'.manifest.elim 0 (Uploads.share session) ≤
        t.manifest.elim 0 (Uploads.share session)) ∨
    ∃ m, t.manifest = none ∧ t'.manifest = some m ∧ w.admits m := by
  cases h with
  | reset hm => exact .inl ⟨le_rfl, fun _ => le_rfl⟩
  | begun hm _ _ _ _ _ hroom => exact .inr ⟨_, hm, rfl, hroom⟩
  | write hm => exact .inl ⟨le_rfl, fun _ => le_rfl⟩
  | chunk hm =>
    refine .inl ⟨?_, fun session => ?_⟩
    · rw [hm]
      exact le_rfl
    · rw [hm]
      exact le_rfl
  | commit hm =>
    refine .inl ⟨?_, fun session => ?_⟩
    · rw [hm]
      exact le_rfl
    · rw [hm]
      exact le_rfl
  | dropData hm => exact .inl ⟨le_rfl, fun _ => le_rfl⟩
  | dropManifest hm => exact .inl ⟨Nat.zero_le _, fun _ => Nat.zero_le _⟩

/-- Where `Expire` loses no file, data without a manifest is empty after a move. -/
theorem Move.unreserved (h : Move w t t') (hlost : ¬ w.lost) :
    t'.manifest = none → ∀ d, t'.data = some d → d = [] := by
  cases h with
  | reset hm =>
    rintro - _ ⟨⟩
    rfl
  | begun hm => rintro ⟨⟩
  | write hm =>
    intro hnone
    rw [show t.manifest = none from hnone] at hm
    cases hm
  | chunk hm => rintro ⟨⟩
  | commit hm => rintro ⟨⟩
  | dropData hm => rintro - _ ⟨⟩
  | dropManifest hm _ hgone =>
    intro _ d hd
    rw [show t.data = some d from hd] at hgone
    rcases hgone with h | h
    · exact absurd h hlost
    · cases h

end Transfer

namespace Uploads

variable {env : Env} {lost : Prop} {u u' : Uploads}

/-- The reservations are within the quotas: 256 MiB in all, four manifests a session. -/
def Within (env : Env) (u : Uploads) : Prop :=
  ∀ session, (reserved env u session).1 ≤ 256 * 1024 * 1024 ∧ (reserved env u session).2 ≤ 4

/-- Data that no manifest reserves is empty. -/
def Reserved (env : Env) (u : Uploads) : Prop :=
  ∀ stem d, readManifest env u stem = none → u.readData stem = some d → d = []

/-- The stems of the data files. -/
def dataFiles (u : Uploads) : List Bytes :=
  (u.files.keys.filter (·.kind = .data)).map (·.stem)

/-- The octets of all data files. -/
def dataBytes (u : Uploads) : Nat := ((u.dataFiles.filterMap u.readData).map List.length).sum

/-- A step keeps the store within the quotas. -/
theorem Steps.within (h : Steps env lost u u') (hu : Within env u) : Within env u' := by
  obtain ⟨-, hsame | ⟨stem, hmove, hother⟩⟩ := h
  · intro session
    rw [reserved_congr fun p => congrArg Transfer.manifest (congrFun hsame p)]
    exact hu session
  have hman : ∀ p, p ≠ stem → readManifest env u' p = readManifest env u p := fun p hp =>
    congrArg Transfer.manifest (hother p hp)
  intro session
  obtain ⟨hsum, hcount⟩ := hu session
  rcases hmove.reserves with ⟨htotal, hshare⟩ | ⟨m, hnone, hsome, hroom⟩
  · have hle := @reserved_le env u u' session
      (fun p => by
        by_cases hp : p = stem
        · subst hp
          exact htotal
        · rw [hman p hp])
      (fun p => by
        by_cases hp : p = stem
        · subst hp
          exact hshare session
        · rw [hman p hp])
    exact ⟨hle.1.trans hsum, hle.2.trans hcount⟩
  · obtain ⟨hfew, hfit⟩ : Admits env u m := hroom
    rw [reserved_add hnone hsome hman]
    refine ⟨hfit, ?_⟩
    by_cases hs : m.session = session
    · subst hs
      rw [share, if_pos rfl]
      exact hfew
    · rw [share, if_neg hs]
      exact hcount

/-- Where no octet is lost a step leaves none without a manifest. -/
theorem Steps.reserved (h : Steps env False u u') (hu : Reserved env u) : Reserved env u' := by
  obtain ⟨-, hsame | ⟨stem, hmove, hother⟩⟩ := h
  · intro p d hm hd
    refine hu p d ?_ ?_
    · exact (congrArg Transfer.manifest (congrFun hsame p)).symm.trans hm
    · exact (congrArg Transfer.data (congrFun hsame p)).symm.trans hd
  · intro p d hm hd
    by_cases hp : p = stem
    · subst hp
      exact hmove.unreserved (fun h => h) hm d hd
    · refine hu p d ?_ ?_
      · exact (congrArg Transfer.manifest (hother p hp)).symm.trans hm
      · exact (congrArg Transfer.data (hother p hp)).symm.trans hd

/-- Time does not fill the store. -/
theorem Waits.within (h : Waits u u') (hu : Within env u) : Within env u' := by
  intro session
  rw [h.near.reserved_eq]
  exact hu session

/-- Nor does it touch the manifests. -/
theorem Waits.reserved (h : Waits u u') (hu : Reserved env u) : Reserved env u' := by
  intro p d hm hd
  rw [readManifest, h.files] at hm
  rw [readData, h.files] at hd
  exact hu p d hm hd

/-- At first the store is empty. -/
theorem within_of_init (h : (machine env).init u) : Within env u := by
  intro session
  rw [reserved, manifests, h.1]
  exact ⟨Nat.zero_le _, Nat.zero_le _⟩

/-- At first there is no data. -/
theorem reserved_of_init (h : (machine env).init u) : Reserved env u := by
  intro p d _ hd
  rw [readData, h.1] at hd
  cases hd

/-- The reservations stay within the quotas, whatever fails. -/
theorem within_of_reachable {x : Uploads × Option (Prog Uploads Answer Unit)}
    (hx : (machine env).Reachable x) : Within env x.1 :=
  (machine_sound env).reachable_inv within_of_init (fun _ hJ h => h.within hJ)
    (fun _ hJ h => h.within hJ) (fun _ hJ => hJ) hx

theorem nodup_dataFiles (u : Uploads) : u.dataFiles.Nodup := by
  refine List.Nodup.map_on ?_ ((AList.keys_nodup u.files).filter _)
  intro a ha b hb hab
  rw [List.mem_filter, decide_eq_true_eq] at ha hb
  cases a
  cases b
  simp_all

theorem mem_dataFiles {stem d : Bytes} (h : u.readData stem = some d) : stem ∈ u.dataFiles := by
  have hmem : (⟨stem, .data⟩ : FileName) ∈ u.files.keys :=
    AList.mem_keys.2 (AList.lookup_isSome.1 (by rw [← readData, h]; rfl))
  exact List.mem_map.2 ⟨_, List.mem_filter.2 ⟨hmem, by simp⟩, rfl⟩

/-- The data files hold no more than the manifests reserve. -/
theorem dataBytes_le (hs : Sound env u) (hu : Reserved env u) (session : Bytes) :
    u.dataBytes ≤ (Uploads.reserved env u session).1 := by
  have hdata := sum_listing (S := u.dataFiles.toFinset ∪ u.manifests.toFinset)
    (nodup_dataFiles u) List.length (fun _ _ => mem_dataFiles)
    (fun x _ h => by simp [mem_dataFiles h])
  have hman := sum_listing (S := u.dataFiles.toFinset ∪ u.manifests.toFinset)
    (nodup_manifests u) Manifest.total (fun x m (h : readManifest env u x = some m) => mem_manifests h)
    (fun x _ h => by simp [mem_manifests h])
  rw [dataBytes, hdata]
  refine le_trans (Finset.sum_le_sum fun stem _ => ?_) hman.ge
  cases hd : u.readData stem with
  | none => exact Nat.zero_le _
  | some d =>
    cases hm : readManifest env u stem with
    | none =>
      rw [hu stem d hm hd]
      exact le_rfl
    | some m => exact ((hs.2 stem).describes hm hd).upper

/-- **Quotas of transfers.** Where removing a file does not fail, in every state of every run of
calls from any sessions, with failed and short writes and crashes between any two operations on
files: the manifests reserve at most 256 MiB, at most four of them belong to one session, no
data file is longer than its manifest declares, and one without a manifest is empty; so the data
files hold at most 256 MiB. -/
theorem transfer_quotas {env : Env} {x : Uploads × Option (Prog Uploads Answer Unit)}
    (hx : (reliable env).Reachable x) :
    ((x.1.manifests.filterMap (readManifest env x.1)).map Manifest.total).sum
        ≤ 256 * 1024 * 1024 ∧
      (∀ session, ((x.1.manifests.filterMap (readManifest env x.1)).filter
        (·.session = session)).length ≤ 4) ∧
      (∀ stem m d, readManifest env x.1 stem = some m → x.1.readData stem = some d →
        d.length ≤ m.total) ∧
      (∀ stem d, readManifest env x.1 stem = none → x.1.readData stem = some d → d = []) ∧
      x.1.dataBytes ≤ 256 * 1024 * 1024 := by
  have hsound := ((reliable_sound env).reachable hx).1
  have hwithin : Within env x.1 := (reliable_sound env).reachable_inv within_of_init
    (fun _ hJ h => h.within hJ) (fun _ hJ h => h.within hJ) (fun _ hJ => hJ) hx
  have hreserved : Reserved env x.1 := (reliable_sound env).reachable_inv reserved_of_init
    (fun _ hJ h => h.reserved hJ) (fun _ hJ h => h.reserved hJ) (fun _ hJ => hJ) hx
  refine ⟨(hwithin []).1, fun session => (hwithin session).2, ?_, hreserved, ?_⟩
  · exact fun stem m d hm hd => ((hsound.2 stem).describes hm hd).upper
  · exact (dataBytes_le hsound hreserved []).trans (hwithin []).1

/-- Calls made one after the other with no failure, where removing a file does not fail. -/
theorem reliable_run_serve {env : Env} {calls : List Call} {u u' : Uploads}
    (h : serve env calls u = some u') : (reliable env).Run (u, none) (u', none) := by
  induction calls generalizing u with
  | nil =>
    cases h
    exact .refl
  | cons call calls ih =>
    simp only [serve, List.foldlM_cons, Option.bind_eq_bind, Option.bind_eq_some_iff,
      Option.map_eq_some_iff] at h
    obtain ⟨_, ⟨⟨_, rest, u₁⟩, hexec, rfl⟩, hrest⟩ := h
    have hsame : ((call.program env).confine removing).exec (List.replicate 64 .ok) u =
        some ((), rest, u₁) := by
      rw [Prog.exec_confine, hexec]
      intro f c hc
      obtain rfl := List.eq_of_mem_replicate hc
      exact ite_self _
    exact (Machine.run_exec (m := reliable env) ⟨call, rfl⟩ hsame).trans (ih hrest)

/-- A transfer of two octets is counted, and within the quotas. -/
theorem transfer_quotas_two_octets : ∃ u, (reliable sampleEnv).Reachable (u, none) ∧
    u.dataBytes = 2 ∧ (readManifest sampleEnv u (path sampleEnv "s1" "t1")).isSome = true ∧
    ((u.manifests.filterMap (readManifest sampleEnv u)).map Manifest.total).sum
      ≤ 256 * 1024 * 1024 := by
  have hserve : (serve sampleEnv sampleCalls { now := 1000 }).any (fun u => u.dataBytes = 2 ∧
      (readManifest sampleEnv u (path sampleEnv "s1" "t1")).isSome = true) = true := by
    decide +kernel
  rw [Option.any_eq_true] at hserve
  obtain ⟨u, hu, hcheck⟩ := hserve
  rw [decide_eq_true_eq] at hcheck
  have hreach : (reliable sampleEnv).Reachable (u, none) :=
    ⟨{ now := 1000 }, ⟨rfl, rfl, by decide⟩, reliable_run_serve hu⟩
  exact ⟨u, hreach, hcheck.1, hcheck.2, (transfer_quotas hreach).1⟩

end Uploads

end VppJson
