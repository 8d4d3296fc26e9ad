import VppJsonGateway.TransferMoves

/-!
# Calls of the transfer manager

Each call of `Handle`, `Resolve` and `Expire` keeps the transfers sound, system call by system
call. With that, what holds after any interleaving of calls, failures, crashes and restarts is
decided by the moves alone.
-/

namespace VppJson

open Lib

namespace Uploads

section

variable {env : Env} {lost : Prop} {u u' u'' : Uploads}

/-! ## The calls -/

/-- The transfers after a data file changed. -/
theorem transfer_insert_data (env : Env) (u : Uploads) (stem d : Bytes) :
    let u' : Uploads := { u with files := u.files.insert ⟨stem, .data⟩ d }
    u'.transfer env stem = { u.transfer env stem with data := some d } ∧
      ∀ p, p ≠ stem → u'.transfer env p = u.transfer env p := by
  refine ⟨?_, fun p hp => ?_⟩
  · simp [transfer, readData, readManifest]
  · simp [transfer, readData, readManifest, hp]

/-- Octets written behind what the manifest counts. -/
theorem steps_write {stem d d' : Bytes} {m : Manifest}
    (hm : (u.transfer env stem).manifest = some m) (hopen : m.committed = false)
    (hd : (u.transfer env stem).data = some d) (hkeep : d'.take m.bytes = d.take m.bytes)
    (hlower : m.bytes ≤ d'.length) (hupper : d'.length ≤ m.total) :
    let u' : Uploads := { u with files := u.files.insert ⟨stem, .data⟩ d' }
    Steps env lost u u' ∧ (u'.transfer env stem).manifest = some m := by
  obtain ⟨hself, hother⟩ := transfer_insert_data env u stem d'
  refine ⟨⟨rfl, .inr ⟨stem, ?_, hother⟩⟩, ?_⟩
  · rw [hself]
    exact .write hm hopen hd hkeep hlower hupper
  · rw [hself]
    exact hm

/-- The data of a chunk that fits is written behind what the manifest counts. -/
theorem keeps_writeChunk {stem data d : Bytes} {m : Manifest}
    (hm : (u.transfer env stem).manifest = some m) (hopen : m.committed = false)
    (hd : u.files.lookup ⟨stem, .data⟩ = some d) (hlower : m.bytes ≤ d.length)
    (hupper : d.length ≤ m.total) (hfit : m.bytes + data.length ≤ m.total) :
    Keeps env lost (fun ok t => ok = true → (t.transfer env stem).manifest = some m ∧
        (t.transfer env stem).data = some (d.take m.bytes ++ data))
      (writeChunk stem data m.bytes) u := by
  have hwait : ∀ {t t' : Uploads}, Waits t t' → (t.transfer env stem).manifest = some m →
      (t'.transfer env stem).manifest = some m := by
    intro t t' ht h
    rw [ht.near.1]
    exact h
  have hlen : ∀ n, n ≤ data.length → (overwrite d m.bytes (data.take n)).length ≤ m.total := by
    intro n hn
    rw [length_overwrite hlower, List.length_take]
    omega
  have hle : ∀ n, m.bytes ≤ (overwrite d m.bytes (data.take n)).length := by
    intro n
    rw [length_overwrite hlower]
    omega
  refine Prog.Follows.seq (keeps_pwriteLoop (P := fun t => (t.transfer env stem).manifest = some m)
    hlower hwait ?_ data.length (Nat.zero_le _) hm ?_) ?_
  · rintro t - hm' ⟨n, hn, hfile⟩ k hk
    refine steps_write hm' hopen hfile ?_ (hle k) (hlen k hk)
    rw [take_overwrite le_rfl hlower, take_overwrite le_rfl hlower]
  · have hnil : overwrite d m.bytes (data.take 0) = d := by
      have hzero : m.bytes - d.length = 0 := by omega
      simp [overwrite, hzero]
    rw [hnil]
    exact hd
  rintro written t ⟨hm', hwritten, hfile⟩
  refine Prog.Follows.seq (Q := fun ok t => ok = true → (t.transfer env stem).manifest = some m ∧
    (t.transfer env stem).data = some (d.take m.bytes ++ data)) ?_ ?_
  · refine keeps_andThen (fun _ h => by cases h) fun hall => ?_
    rw [decide_eq_true_eq] at hall
    rw [hall, List.take_length] at hfile
    refine Prog.Follows.step fun t' ht _ c => ?_
    have hfile' : t'.files.lookup ⟨stem, .data⟩ = some (overwrite d m.bytes data) :=
      ht.files ▸ hfile
    simp only [hfile', truncate_overwrite hlower]
    split
    · have hsize : (d.take m.bytes ++ data).length = m.bytes + data.length := by
        rw [List.length_append, List.length_take, Nat.min_eq_left hlower]
      have hkeep : (d.take m.bytes ++ data).take m.bytes =
          (overwrite d m.bytes data).take m.bytes := by
        rw [take_overwrite le_rfl hlower, List.take_append_of_le_length
          (by rw [List.length_take]; omega), List.take_take, Nat.min_self]
      have hstep := @steps_write env lost _ _ _ _ _ (hwait ht hm') hopen hfile' hkeep (by omega) (by omega)
      refine ⟨hstep.1, fun _ => ⟨hstep.2, ?_⟩⟩
      rw [(transfer_insert_data env t' stem (d.take m.bytes ++ data)).1]
    · exact ⟨Steps.refl t', fun h => by cases h⟩
  intro cut t' hcut
  refine keeps_andThen (fun _ h => by cases h) fun hc => keeps_call fun _ t'' ht _ => ?_
  rw [ht.near.1]
  exact hcut hc

/-- A digest is hexadecimal text. -/
theorem valid_sha256 (env : Env) (data : Bytes) : Utf8.Valid (env.sha256 data) := valid_hex _

/-- `chunk` writes its octets at the offset that the manifest has received, or at one it has
received before; then the manifest follows. -/
theorem keeps_handleChunk {id stem : Bytes} {m : Manifest} {params : Json} (hm : (u.transfer env stem).manifest = some m) :
    Keeps env lost (fun _ _ => True) (handleChunk env id stem m params) u := by
  unfold handleChunk
  split
  · trivial
  · next seq data hparams =>
    simp only
    split_ifs with hdup hcommitted hseq hfit
    · trivial
    · trivial
    · trivial
    · trivial
    have hopen : m.committed = false := by simpa using hcommitted
    refine Prog.Follows.seq (Q := fun ok t => ok = true → Near env u t ∧ Sound env t ∧
      ∃ d, t.files.lookup ⟨stem, .data⟩ = some d) ?_ ?_
    · refine Prog.Follows.step fun t ht hs' c => ⟨Steps.refl t, fun hok => ?_⟩
      rw [decide_eq_true_eq] at hok
      exact ⟨ht.near, hs', Option.isSome_iff_exists.1 (AList.lookup_isSome.2 hok.2)⟩
    intro opened t hopened
    cases opened with
    | false => trivial
    | true =>
    obtain ⟨hnear, hst, d, hd⟩ := hopened rfl
    have hmt : (t.transfer env stem).manifest = some m := by
      rw [hnear.1]
      exact hm
    have hdesc := (hst.2 stem).describes hmt hd
    have hne : data ≠ [] := by
      unfold chunk? at hparams
      split at hparams
      · split at hparams
        · next h => cases hparams; exact h.2.2
        · cases hparams
      · cases hparams
    refine Prog.Follows.seq (@keeps_writeChunk _ _ _ _ data _ _ hmt hopen hd hdesc.lower hdesc.upper
      (by omega)) ?_
    intro written t' hwritten
    cases written with
    | false => trivial
    | true =>
    obtain ⟨hm', hd'⟩ := hwritten rfl
    refine (keeps_save (m := m.counting env.sha256 data) ?_ ?_ ?_).mono fun _ _ _ => trivial
    · have hpos : 0 < data.length := List.length_pos_iff.2 hne
      have hvalid := (hst.2 stem).valid hmt
      exact { hvalid with
        lastHash := valid_sha256 env data
        bytes := by simp only [Manifest.counting]; omega
        nextSeq := Nat.add_le_add hvalid.nextSeq hpos }
    · intro e he
      rw [List.mem_singleton] at he
      exact he ▸ rfl
    · intro t'' _ hn
      have hm'' : (t''.transfer env stem).manifest = some m := by
        rw [hn.1]
        exact hm'
      have hd'' : (t''.transfer env stem).data = some (d.take m.bytes ++ data) := by
        rw [hn.1]
        exact hd'
      have hchunks : accepted stem ([.chunk stem m.nextSeq data] ++ t''.log) =
          (t''.transfer env stem).chunks ++ [(m.nextSeq, data)] := if_pos rfl
      refine .inr ?_
      simp only [hchunks]
      refine .chunk hm'' hopen hd'' hne ?_ (by omega) (valid_sha256 env data)
      rw [List.drop_left' (by rw [List.length_take, Nat.min_eq_left hdesc.lower])]

/-- `transfer.status` stores the manifest it read. -/
theorem keeps_saveSame {id stem : Bytes} {m : Manifest}
    (hvalid : m.Valid) (hm : (u.transfer env stem).manifest = some m) :
    Keeps env lost (fun _ _ => True) (save id stem m []) u := by
  refine (keeps_save hvalid (by simp) fun t _ hn => .inl ?_).mono fun _ _ _ => trivial
  have hm' : (t.transfer env stem).manifest = some m := by
    rw [hn.1]
    exact hm
  rw [← hm']
  rfl

/-- `commit` compares the digest of the content with the one of the manifest before it says that the
transfer is committed. -/
theorem keeps_handleCommit {id stem : Bytes} {m : Manifest} {params : Json}
    (hm : (u.transfer env stem).manifest = some m) :
    Keeps env lost (fun _ _ => True) (handleCommit env id stem m params) u := by
  unfold handleCommit
  split_ifs with hsize hfull
  · trivial
  · trivial
  refine Prog.Follows.seq (Q := fun digest t =>
      Near env u t ∧ Sound env t ∧ digest = fileHash env t stem)
    (Prog.Follows.read Steps.refl fun t ht hs => ⟨ht.near, hs, rfl⟩) ?_
  rintro digest t ⟨hnear, hs, rfl⟩
  split_ifs with hdigest
  · trivial
  rw [not_not] at hfull hdigest
  have hvalid := (hs.2 stem).valid (show (t.transfer env stem).manifest = some m by
    rw [hnear.1]; exact hm)
  refine (keeps_save (m := { m with committed := true }) { hvalid with } (by simp) ?_).mono
    fun _ _ _ => trivial
  intro t' hst hn
  have hm' : (t'.transfer env stem).manifest = some m := by
    rw [hn.1, hnear.1]
    exact hm
  refine .inr ?_
  cases hd : (t'.transfer env stem).data with
  | none =>
    exfalso
    have hd' : t.readData stem = none := by
      rw [show t.readData stem = (t.transfer env stem).data from rfl, ← hn.1]
      exact hd
    have hlen := hvalid.digest
    rw [fileHash, hd'] at hdigest
    rw [← hdigest] at hlen
    cases hlen
  | some d =>
    have hd' : t.readData stem = some d := by
      rw [show t.readData stem = (t.transfer env stem).data from rfl, ← hn.1]
      exact hd
    rw [fileHash, hd'] at hdigest
    exact hd ▸ .commit hm' hd hfull hdigest

/-- The parameters of a `transfer.begin` that passed its checks. -/
theorem begin?_some {params : Json} {total : Nat} {digest : Bytes}
    (h : begin? params = some (total, digest)) :
    total ≤ Limits.uploadBytes ∧ digest.length = 64 ∧ Utf8.Valid digest := by
  unfold begin? at h
  split at h
  · split at h
    · next hcheck =>
      cases h
      refine ⟨hcheck.2.1, hcheck.2.2.1, Utf8.valid_of_ascii fun c hc => ?_⟩
      have hhex := List.all_eq_true.1 hcheck.2.2.2 c hc
      simp only [isHexDigit, decide_eq_true_eq] at hhex
      refine UInt8.le_iff_toNat_le.2 ?_
      rw [show (0x7F : UInt8).toNat = 127 from rfl]
      omega
    · cases h
  · cases h

/-- A reply tells how far a transfer is. -/
def Tells (v : Json) (m : Manifest) : Prop :=
  v.get? "next_seq" = some (.uint m.nextSeq) ∧ v.get? "committed" = some (.bool m.committed)

/-- A transfer that was begun successfully has the manifest the call asks for: the one there was,
or a new one that expires in ten minutes. -/
structure Begun (env : Env) (u : Uploads) (stem : Bytes) (params v : Json) (t : Uploads)
    (m : Manifest) : Prop where
  asked : begin? params = some (m.total, m.sha256)
  stored : (t.transfer env stem).manifest = some m
  tells : Tells v m
  origin : (u.transfer env stem).manifest = some m ∨
    ((u.transfer env stem).manifest = none ∧ u.now + 600 ≤ m.expires)

/-- `begin` stores a manifest with nothing received and makes an empty content, or finds the
manifest of an earlier call with the same parameters. -/
theorem keeps_handleBegin {session id stem : Bytes} {params : Json}
    (hsession : Utf8.Valid session) :
    Keeps env lost (fun r t => ∀ v, r = .ok v → ∃ m, Begun env u stem params v t m)
      (handleBegin env session id stem params) u := by
  unfold handleBegin
  split
  · rintro v ⟨⟩
  · next total digest hparams =>
    obtain ⟨htotal, hlength, hdigest⟩ := begin?_some hparams
    refine Prog.Follows.seq (Q := fun r t => Near env u t ∧ (t.transfer env stem).manifest = r)
      (Prog.Follows.read Steps.refl fun t ht _ => ⟨ht.near, rfl⟩) ?_
    rintro r t ⟨hnear₀, hr⟩
    cases r with
    | some m =>
      simp only
      split_ifs with hsame
      · rintro v ⟨⟩
      · rintro v ⟨⟩
        simp only [not_or, not_not] at hsame
        have hm : (u.transfer env stem).manifest = some m := by
          rw [← hnear₀.1]
          exact hr
        exact ⟨m, by rw [hparams, hsame.1, hsame.2], hr, ⟨rfl, rfl⟩, .inl hm⟩
    | none =>
      have hnone₀ : (u.transfer env stem).manifest = none := by
        rw [← hnear₀.1]
        exact hr
      refine Prog.Follows.seq (Q := fun listed t' => (u.now ≤ t'.now ∧
        (t'.transfer env stem).manifest = none) ∧
          ∀ quota, listed = some quota → reserved env t' session = quota)
        (Prog.Follows.step fun t' ht _ c => ⟨Steps.refl t', ⟨?_, ?_⟩, ?_⟩) ?_
      · exact hnear₀.2.trans ht.now
      · simp only [ht.near.1]
        exact hr
      · intro quota hquota
        simp only at hquota
        split at hquota
        · exact Option.some.inj hquota
        · cases hquota
      rintro listed t' ⟨⟨hlow, hnone⟩, hlisted⟩
      cases listed with
      | none => rintro v ⟨⟩
      | some quota =>
      obtain ⟨sum, count⟩ := quota
      have hreserved := hlisted _ rfl
      simp only
      split_ifs with hquota
      · rintro v ⟨⟩
      refine Prog.Follows.seq (keeps_writeAtomic (P := fun t => u.now ≤ t.now ∧
        (t.transfer env stem).manifest = none ∧ (t.transfer env stem).data = some [] ∧
          reserved env t session = (sum, count)) (.inl rfl) ?_ ?_) ?_
      · intro a b hab h
        rw [hab.near.1, hab.near.reserved_eq]
        exact ⟨h.1.trans hab.now, h.2⟩
      · intro a _ hn hfile
        have hman : ∀ p, (a.files.rename ⟨stem, .dataTmp⟩ ⟨stem, .data⟩).lookup ⟨p, .manifest⟩ =
            a.files.lookup ⟨p, .manifest⟩ := fun p =>
          Files.lookup_rename_of_ne (by simp) (by simp)
        have hnone' : (a.transfer env stem).manifest = none := by
          rw [hn.1]
          exact hnone
        have hself : Uploads.transfer env { a with
            files := a.files.rename ⟨stem, .dataTmp⟩ ⟨stem, .data⟩, log := [] ++ a.log } stem =
            { a.transfer env stem with data := some [] } := by
          simp only [transfer, readData, readManifest, hman, List.nil_append,
            Files.lookup_rename_target hfile]
        refine ⟨⟨rfl, .inr ⟨stem, ?_, fun p hp => ?_⟩⟩, hlow.trans hn.2, ?_⟩
        · rw [hself]
          exact .reset hnone'
        · have hdata : (a.files.rename ⟨stem, .dataTmp⟩ ⟨stem, .data⟩).lookup ⟨p, .data⟩ =
              a.files.lookup ⟨p, .data⟩ := Files.lookup_rename_of_ne (by simp) (by simp [hp])
          simp only [transfer, readData, readManifest, hman, hdata, List.nil_append]
        · rw [hself]
          refine ⟨hnone', rfl, ?_⟩
          rw [← hreserved, ← hn.reserved_eq]
          exact reserved_congr (fun p => by simp only [readManifest, hman]) session
      intro status a hstatus
      cases hok : status.ok with
      | false => rintro v ⟨⟩
      | true =>
      obtain ⟨hlow', hnone', hempty, hkept⟩ := hstatus hok
      rw [if_neg (by decide)]
      refine Prog.Follows.seq (Q := fun now b => (u.now ≤ now ∧ now + 600 < 2 ^ 63) ∧ Near env a b)
        (keeps_clock fun b hb hs => ⟨⟨hlow'.trans hb.now, hs.1⟩, hb.near⟩) ?_
      rintro now b ⟨⟨hpast, hnow⟩, hnear⟩
      have hvalid : (Manifest.fresh session digest total (now + 600)).Valid := {
        session := hsession
        sha256 := hdigest
        digest := hlength
        lastHash := rfl
        total := htotal
        bytes := Nat.zero_le _
        nextSeq := Nat.zero_le _
        expires := hnow }
      refine (keeps_save hvalid ?_ ?_).mono ?_
      · intro e he
        rw [List.mem_singleton] at he
        exact he ▸ rfl
      · intro c _ hn
        have hback : c.transfer env = a.transfer env := hn.1.trans hnear.1
        have hchunks : accepted stem ([.begun stem] ++ c.log) = [] := if_pos rfl
        refine .inr ?_
        simp only [hchunks]
        have hroom : reserved env c session = (sum, count) := by
          rw [hn.reserved_eq, hnear.reserved_eq, hkept]
        refine .begun ?_ ?_ hvalid rfl rfl rfl ?_
        · rw [hback]
          exact hnone'
        · rw [hback]
          exact hempty
        · change (reserved env c session).2 < 4 ∧ (reserved env c session).1 + total ≤ _
          rw [hroom]
          exact ⟨by omega, by omega⟩
      · intro r c hr v hv
        obtain ⟨rfl, hm⟩ := hr v hv
        exact ⟨_, hparams, hm, ⟨rfl, rfl⟩, .inr ⟨hnone₀, Nat.add_le_add_right hpast 600⟩⟩

/-- `Handle`, for every session, method and parameters. -/
theorem keeps_handle {session method : Bytes} {params : Json} (hsession : Utf8.Valid session) :
    Keeps env lost (fun _ _ => True) (handle env session method params) u := by
  unfold handle
  split
  · next id _ =>
    split
    · trivial
    simp only
    split
    · exact (keeps_handleBegin hsession).mono fun _ _ _ => trivial
    refine Prog.Follows.seq keeps_load ?_
    intro r t hr
    cases r with
    | error status => trivial
    | ok m =>
      obtain ⟨hvalid, hm⟩ := hr m rfl
      simp only
      split_ifs
      · exact keeps_handleChunk hm
      · exact keeps_handleCommit hm
      · trivial
      · exact keeps_saveSame hvalid hm
      · trivial
  · trivial

/-- `Resolve` only reads. -/
theorem keeps_resolve {session id : Bytes} :
    Keeps env lost (fun _ _ => True) (resolve env session id) u := by
  refine Prog.Follows.seq keeps_load ?_
  intro r t _
  cases r with
  | error status => trivial
  | ok m =>
    simp only
    split_ifs
    · trivial
    · trivial
    refine Prog.Follows.seq (Q := fun _ _ => True)
      (Prog.Follows.read Steps.refl fun _ _ _ => trivial) ?_
    intro text t' _
    split <;> trivial

/-- The transfers after a file was removed. -/
theorem steps_unlink {stem : Bytes} {m : Manifest} {kind : Kind}
    (hkind : kind = .data ∨ kind = .manifest ∧ (lost ∨ (u.transfer env stem).data = none))
    (hm : (u.transfer env stem).manifest = some m) (hexpired : m.expires ≤ u.now) :
    Steps env lost u { u with files := u.files.erase ⟨stem, kind⟩ } := by
  refine ⟨rfl, .inr ⟨stem, ?_, fun p hp => ?_⟩⟩
  · rcases hkind with rfl | ⟨rfl, hgone⟩
    · have h : Uploads.transfer env { u with files := u.files.erase ⟨stem, .data⟩ } stem =
          { u.transfer env stem with data := none } := by
        simp [transfer, readData, readManifest]
      rw [h]
      exact .dropData hm hexpired
    · have h : Uploads.transfer env { u with files := u.files.erase ⟨stem, .manifest⟩ } stem =
          { u.transfer env stem with manifest := none } := by
        simp [transfer, readData, readManifest]
      rw [h]
      exact .dropManifest hm hexpired hgone
  · simp [transfer, readData, readManifest, hp]

/-- What `unlink` does where it succeeds. -/
def removal (f : FileName) (c : Answer) (u : Uploads) : Uploads :=
  if c = .ok then { u with files := u.files.erase f } else u

/-- `unlink`, where a file may stay only when it may be lost. -/
theorem keeps_unlink {g : (Answer → Uploads → Uploads) → Answer → Answer} {f : FileName}
    {Q : Unit → Uploads → Prop} (hg : lost ∨ ∀ c, g (removal f) c = .ok)
    (hgone : ∀ t, Waits u t →
      let t' := { t with files := t.files.erase f }
      Steps env lost t t' ∧ Q () t')
    (hstay : lost → ∀ t, Waits u t → Q () t) :
    Keeps env lost Q ((unlink f).confine g) u := by
  intro t ht _ c
  change Steps env lost t (removal f (g (removal f) c) t) ∧ Q () (removal f (g (removal f) c) t)
  by_cases hc : g (removal f) c = .ok
  · rw [removal, if_pos hc]
    exact hgone t ht
  · rw [removal, if_neg hc]
    exact ⟨Steps.refl t, hstay (hg.resolve_right fun h => hc (h c)) t ht⟩

/-- `Expire`, in an environment that loses no file, or may. -/
theorem keeps_expire {g : (Answer → Uploads → Uploads) → Answer → Answer}
    (hg : lost ∨ ∀ f c, g (removal f) c = .ok) :
    Keeps env lost (fun _ _ => True) ((expire env).confine g) u := by
  refine Prog.Follows.confine_seq (Q := fun _ _ => True) ?_
    (Prog.Follows.confine (Prog.Follows.step fun t _ _ _ => ⟨Steps.refl t, trivial⟩))
  intro listed t _
  cases listed with
  | none => trivial
  | some stems =>
    refine Prog.Follows.confine_forEach (J := fun _ _ => True) ?_ trivial
    intro stem _ t _
    refine Prog.Follows.confine_seq (Q := fun r t => (t.transfer env stem).manifest = r) ?_
      (Prog.Follows.confine (Prog.Follows.read Steps.refl fun _ _ _ => rfl))
    intro r t hr
    cases r with
    | none => trivial
    | some m =>
      refine Prog.Follows.confine_seq (Q := fun now t =>
        (t.transfer env stem).manifest = some m ∧ now ≤ t.now) ?_
        (Prog.Follows.confine (keeps_clock fun t' ht _ =>
          ⟨by rw [ht.near.1]; exact hr, le_rfl⟩))
      rintro now t' ⟨hm, hnow⟩
      split_ifs with hexpired
      · trivial
      have hstill : ∀ {a b : Uploads}, Waits a b → (a.transfer env stem).manifest = some m ∧
          m.expires ≤ a.now → (b.transfer env stem).manifest = some m ∧ m.expires ≤ b.now := by
        rintro a b hab ⟨ha, hn⟩
        rw [hab.near.1]
        exact ⟨ha, hn.trans hab.now⟩
      refine Prog.Follows.confine_seq (Q := fun _ t =>
        ((t.transfer env stem).manifest = some m ∧ m.expires ≤ t.now) ∧
          (lost ∨ (t.transfer env stem).data = none)) ?_ ?_
      · rintro _ a ⟨ha, hgone⟩
        refine keeps_unlink (hg.imp_right fun h => h _) ?_ fun _ _ _ => trivial
        intro b hb
        obtain ⟨hmb, hnb⟩ := hstill hb ha
        rw [← hb.near.1] at hgone
        exact ⟨steps_unlink (.inr ⟨rfl, hgone⟩) hmb hnb, trivial⟩
      · refine keeps_unlink (hg.imp_right fun h => h _) ?_ ?_
        · intro b hb
          obtain ⟨hmb, hnb⟩ := hstill hb ⟨hm, by omega⟩
          refine ⟨steps_unlink (.inl rfl) hmb hnb, ⟨?_, hnb⟩, .inr ?_⟩
          · simpa [transfer, readManifest] using hmb
          · simp [transfer, readData]
        · exact fun hlost b hb => ⟨hstill hb ⟨hm, by omega⟩, .inl hlost⟩

end

end Uploads

end VppJson
