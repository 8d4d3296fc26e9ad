import VppJsonGateway.TransferSpec

/-!
# Moves of a transfer

Every system call of the transfer manager leaves all transfers as they are or is one
`Transfer.Move` of one transfer, whatever the file system answers.
-/

namespace VppJson

open Lib

namespace Uploads

section

variable (env : Env) (lost : Prop)

/-- The transfer stored under a stem. -/
def transfer (u : Uploads) (stem : Bytes) : Transfer :=
  ⟨u.readData stem, readManifest env u stem, accepted stem u.log⟩

/-- What happens while the manager waits: time passes. `Now` counts seconds in 64 bits and
stays clear of their end. -/
structure Waits (u u' : Uploads) : Prop where
  files : u'.files = u.files
  log : u'.log = u.log
  now : u.now ≤ u'.now
  bound : u.now + 600 < 2 ^ 63 → u'.now + 600 < 2 ^ 63

/-- The quotas leave room for a new manifest. -/
def Admits (u : Uploads) (m : Manifest) : Prop :=
  (reserved env u m.session).2 < 4 ∧
    (reserved env u m.session).1 + m.total ≤ 256 * 1024 * 1024

/-- Where the transfers of a state move. -/
def setting (u : Uploads) : Transfer.Setting := ⟨env.sha256, u.now, Admits env u, lost⟩

/-- One step of the manager: all transfers stay, or one of them moves. -/
def Steps (u u' : Uploads) : Prop :=
  u'.now = u.now ∧
    (u'.transfer env = u.transfer env ∨
      ∃ stem, Transfer.Move (setting env lost u) (u.transfer env stem) (u'.transfer env stem) ∧
        ∀ p, p ≠ stem → u'.transfer env p = u.transfer env p)

/-- All transfers are sound. -/
def Sound (u : Uploads) : Prop :=
  u.now + 600 < 2 ^ 63 ∧ ∀ stem, (u.transfer env stem).Sound env.sha256 u.now

/-- The transfers are the same, at a later time. -/
def Near (u u' : Uploads) : Prop := u'.transfer env = u.transfer env ∧ u.now ≤ u'.now

/-- A program of the manager, from a state on. -/
abbrev Keeps {α : Type} (Q : α → Uploads → Prop) (p : Prog Uploads Answer α) (u : Uploads) :
    Prop :=
  p.Follows Waits (Steps env lost) (Sound env) Q u

end

section

variable {env : Env} {lost : Prop} {u u' u'' : Uploads}

/-- No time passes. -/
theorem Waits.refl (u : Uploads) : Waits u u := ⟨rfl, rfl, le_rfl, fun h => h⟩

/-- Time passes twice. -/
theorem Waits.trans (h : Waits u u') (h' : Waits u' u'') : Waits u u'' :=
  ⟨h'.files.trans h.files, h'.log.trans h.log, h.now.trans h'.now, fun hb => h'.bound (h.bound hb)⟩

/-- The transfers depend on the data files, the manifests and the history. -/
theorem transfer_congr (hdata : ∀ stem, u'.files.lookup ⟨stem, .data⟩ = u.files.lookup ⟨stem, .data⟩)
    (hman : ∀ stem, u'.files.lookup ⟨stem, .manifest⟩ = u.files.lookup ⟨stem, .manifest⟩)
    (hlog : u'.log = u.log) : u'.transfer env = u.transfer env := by
  funext stem
  simp only [transfer, readData, readManifest, hdata, hman, hlog]

/-- While time passes, the transfers stay. -/
theorem Waits.near (h : Waits u u') : Near env u u' :=
  ⟨transfer_congr (by simp [h.files]) (by simp [h.files]) h.log, h.now⟩

/-- A state is near itself. -/
theorem Near.refl (u : Uploads) : Near env u u := ⟨rfl, le_rfl⟩

/-- States that are near a near one. -/
theorem Near.trans (h : Near env u u') (h' : Near env u' u'') : Near env u u'' :=
  ⟨h'.1.trans h.1, h.2.trans h'.2⟩

/-- A sound state stays sound while time passes. -/
theorem Waits.sound (h : Waits u u') (hs : Sound env u) : Sound env u' := by
  refine ⟨h.bound hs.1, fun stem => ?_⟩
  rw [h.near.1]
  exact (hs.2 stem).later h.now

/-- Nothing is done. -/
theorem Steps.refl (u : Uploads) : Steps env lost u u := ⟨rfl, .inl rfl⟩

/-- A move leaves every transfer sound: its own by `Move.sound`, the others as they are. -/
theorem Steps.sound (h : Steps env lost u u') (hs : Sound env u) : Sound env u' := by
  obtain ⟨hnow, hsame | ⟨stem, hmove, hother⟩⟩ := h
  · refine ⟨hnow ▸ hs.1, fun p => ?_⟩
    rw [hsame, hnow]
    exact hs.2 p
  · refine ⟨hnow ▸ hs.1, fun p => ?_⟩
    rw [hnow]
    by_cases hp : p = stem
    · subst hp
      exact hmove.sound (hs.2 p)
    · rw [hother p hp]
      exact hs.2 p

/-! ## Reservations -/

/-- A stem has one manifest. -/
theorem nodup_manifests (u : Uploads) : u.manifests.Nodup := by
  refine List.Nodup.map_on ?_ ((AList.keys_nodup u.files).filter _)
  intro a ha b hb hab
  rw [List.mem_filter, decide_eq_true_eq] at ha hb
  cases a
  cases b
  simp_all

/-- A manifest that can be read is listed. -/
theorem mem_manifests {stem : Bytes} {m : Manifest} (h : readManifest env u stem = some m) :
    stem ∈ u.manifests := by
  rw [readManifest, Option.bind_eq_some_iff] at h
  obtain ⟨_, h, -⟩ := h
  rw [Option.bind_eq_some_iff] at h
  obtain ⟨_, h, -⟩ := h
  have hmem : (⟨stem, .manifest⟩ : FileName) ∈ u.files.keys :=
    AList.mem_keys.2 (AList.lookup_isSome.1 (by rw [h]; rfl))
  exact List.mem_map.2 ⟨_, List.mem_filter.2 ⟨hmem, by simp⟩, rfl⟩

/-- A session's part of the weight of a manifest. -/
def share (session : Bytes) (m : Manifest) : Nat := if m.session = session then 1 else 0

/-- The manifests of a session, as a sum. -/
theorem length_filter_session (l : List Manifest) (session : Bytes) :
    (l.filter (·.session = session)).length = (l.map (share session)).sum := by
  induction l with
  | nil => rfl
  | cons m l ih =>
    by_cases hm : m.session = session
    · simp [share, hm, ← ih, Nat.add_comm]
    · simp [share, hm, ← ih]

/-- Manifests that reserve no more in `u'` than in `u`. -/
theorem reserved_le {session : Bytes}
    (htotal : ∀ stem, (readManifest env u' stem).elim 0 (·.total) ≤
      (readManifest env u stem).elim 0 (·.total))
    (hshare : ∀ stem, (readManifest env u' stem).elim 0 (share session) ≤
      (readManifest env u stem).elim 0 (share session)) :
    (reserved env u' session).1 ≤ (reserved env u session).1 ∧
      (reserved env u' session).2 ≤ (reserved env u session).2 := by
  simp only [reserved, length_filter_session]
  exact ⟨sum_listing_le (nodup_manifests u) (nodup_manifests u') _ (fun _ _ => mem_manifests)
      (fun _ _ => mem_manifests) htotal,
    sum_listing_le (nodup_manifests u) (nodup_manifests u') _ (fun _ _ => mem_manifests)
      (fun _ _ => mem_manifests) hshare⟩

/-- A new manifest reserves its length, for its session. -/
theorem reserved_add {session stem : Bytes} {m : Manifest} (hnone : readManifest env u stem = none)
    (hsome : readManifest env u' stem = some m)
    (hsame : ∀ p, p ≠ stem → readManifest env u' p = readManifest env u p) :
    reserved env u' session =
      ((reserved env u session).1 + m.total, (reserved env u session).2 + share session m) := by
  simp only [reserved, length_filter_session]
  exact Prod.ext
    (sum_listing_add (nodup_manifests u) (nodup_manifests u') _ (fun _ _ => mem_manifests)
      (fun _ _ => mem_manifests) hnone hsome hsame)
    (sum_listing_add (nodup_manifests u) (nodup_manifests u') _ (fun _ _ => mem_manifests)
      (fun _ _ => mem_manifests) hnone hsome hsame)

/-- The reservations are read off the manifests. -/
theorem reserved_congr (hman : ∀ stem, readManifest env u' stem = readManifest env u stem)
    (session : Bytes) : reserved env u' session = reserved env u session := by
  have hle := @reserved_le env u u' session (fun p => by rw [hman]) (fun p => by rw [hman])
  have hge := @reserved_le env u' u session (fun p => by rw [hman]) (fun p => by rw [hman])
  exact Prod.ext (le_antisymm hle.1 hge.1) (le_antisymm hle.2 hge.2)

/-- What a session has reserved depends on the manifests. -/
theorem Near.reserved_eq (h : Near env u u') (session : Bytes) :
    reserved env u' session = reserved env u session :=
  reserved_congr (fun stem => congrArg Transfer.manifest (congrFun h.1 stem)) session

/-! ## System calls -/

/-- A file no transfer is read from. -/
def Temporary (f : FileName) : Prop := f.kind = .dataTmp ∨ f.kind = .manifestTmp

/-- A temporary file is neither content nor manifest. -/
theorem Temporary.ne {f : FileName} (h : Temporary f) {g : FileName}
    (hg : g.kind = .data ∨ g.kind = .manifest) : g ≠ f := by
  rintro rfl
  rcases h with h | h <;> rcases hg with hg | hg <;> rw [h] at hg <;> cases hg

/-- Writing a temporary file changes no transfer. -/
theorem transfer_insert_temporary {f : FileName} (h : Temporary f) (content : Bytes) :
    ({ u with files := u.files.insert f content } : Uploads).transfer env = u.transfer env :=
  transfer_congr (fun _ => AList.lookup_insert_ne (h.ne (.inl rfl)))
    (fun _ => AList.lookup_insert_ne (h.ne (.inr rfl))) rfl

/-- A system call that changes no content. -/
theorem keeps_call {Q : Bool → Uploads → Prop}
    (h : ∀ b t, Waits u t → Q b t) : Keeps env lost Q call u :=
  Prog.Follows.step fun t ht _ _ => ⟨Steps.refl t, h _ t ht⟩

/-- Reading the clock. -/
theorem keeps_clock {Q : Nat → Uploads → Prop}
    (h : ∀ t, Waits u t → Sound env t → Q t.now t) : Keeps env lost Q clock u :=
  Prog.Follows.read Steps.refl fun t ht hs => h t ht hs

/-- A call that is only made if those before it have succeeded. -/
theorem keeps_andThen {a : Bool} {p : Prog Uploads Answer Bool} {Q : Bool → Uploads → Prop}
    (hfalse : a = false → Q false u) (htrue : a = true → Keeps env lost Q p u) :
    Keeps env lost Q (andThen a p) u := by
  cases a with
  | false => exact hfalse rfl
  | true => exact htrue rfl

/-- The loop of writes: as long as what one write does is allowed, the file holds a part of the
data behind what it held. -/
theorem keeps_pwriteLoop {f : FileName} {d data : Bytes} {offset : Nat} {P : Uploads → Prop}
    (hlen : offset ≤ d.length) (hwait : ∀ {t t'}, Waits t t' → P t → P t')
    (hwrite : ∀ t, Sound env t → P t → (∃ n, n ≤ data.length ∧
        t.files.lookup f = some (overwrite d offset (data.take n))) →
      ∀ n, n ≤ data.length →
        let t' := { t with files := t.files.insert f (overwrite d offset (data.take n)) }
        Steps env lost t t' ∧ P t') :
    ∀ (fuel : Nat) {written : Nat} {u : Uploads}, written ≤ data.length → P u →
      u.files.lookup f = some (overwrite d offset (data.take written)) →
      Keeps env lost (fun n t => P t ∧ n ≤ data.length ∧
        t.files.lookup f = some (overwrite d offset (data.take n)))
        (pwriteLoop f data offset fuel written) u := by
  intro fuel
  induction fuel with
  | zero => exact fun hle hP hfile => ⟨hP, hle, hfile⟩
  | succ fuel ih =>
    intro written u hle hP hfile
    rw [pwriteLoop]
    split
    · next hlt =>
      refine Prog.Follows.seq (Q := fun count t => written + count ≤ data.length ∧ P t ∧
        t.files.lookup f = some (overwrite d offset (data.take (written + count)))) ?_ ?_
      · refine Prog.Follows.step fun t ht hs c => ?_
        have hfile' : t.files.lookup f = some (overwrite d offset (data.take written)) :=
          ht.files ▸ hfile
        have hbound := c.count_le (data.drop written).length
        simp only [hfile']
        generalize c.count (data.drop written).length = count at hbound ⊢
        rw [List.length_drop] at hbound
        have hmore : overwrite (overwrite d offset (data.take written)) (offset + written)
            ((data.drop written).take count) =
            overwrite d offset (data.take (written + count)) := by
          have h := overwrite_overwrite (a := data.take written)
            (b := (data.drop written).take count) hlen
          rw [List.length_take, Nat.min_eq_left hle] at h
          rw [h, List.take_add]
        rw [hmore]
        have hstep := hwrite t hs (hwait ht hP) ⟨written, hle, hfile'⟩ (written + count) (by omega)
        exact ⟨hstep.1, by omega, hstep.2, AList.lookup_insert _⟩
      · rintro count t ⟨hle', hP', hfile'⟩
        split
        · next hzero =>
          subst hzero
          exact ⟨hP', hle, hfile'⟩
        · exact ih hle' hP' hfile'
    · exact ⟨hP, hle, hfile⟩

/-- `WriteAtomic`: what the rename does to the transfers has to be allowed; when the call
reports success, the rename has been made. -/
theorem keeps_writeAtomic {target temporary : FileName} (htemp : Temporary temporary)
    {text : Bytes} {events : List Event} {P : Uploads → Prop}
    (hwait : ∀ {t t'}, Waits t t' → P t → P t')
    (hrename : ∀ t, Sound env t → Near env u t → t.files.lookup temporary = some text →
      let t' := { t with files := t.files.rename temporary target, log := events ++ t.log }
      Steps env lost t t' ∧ P t') :
    Keeps env lost (fun status t => status.ok = true → P t)
      (writeAtomic target temporary text events) u := by
  have hfail : ∀ m : Bytes, Status.ok ⟨"storage_error", m⟩ = true → False := by
    intro m hm
    cases hm
  refine Prog.Follows.seq (Q := fun ok t => ok = true →
    Near env u t ∧ t.files.lookup temporary = some []) ?_ ?_
  · refine Prog.Follows.step fun t ht _ c => ?_
    split
    · refine ⟨⟨rfl, .inl (transfer_insert_temporary htemp [])⟩, fun _ => ⟨?_, ?_⟩⟩
      · exact ⟨(transfer_insert_temporary htemp []).trans ht.near.1, ht.now⟩
      · exact AList.lookup_insert _
    · exact ⟨Steps.refl t, fun h => by cases h⟩
  intro opened t hopened
  cases opened with
  | false => exact fun h => (hfail _ h).elim
  | true =>
  obtain ⟨hnear, hempty⟩ := hopened rfl
  refine Prog.Follows.seq (Q := fun ok t => ok = true →
    Near env u t ∧ t.files.lookup temporary = some text) ?_ ?_
  · refine Prog.Follows.seq (keeps_pwriteLoop (d := []) (P := Near env u) (Nat.zero_le _)
      (fun h hn => hn.trans h.near) ?_ text.length (Nat.zero_le _) hnear ?_) ?_
    · intro t' _ hn _ n _
      refine ⟨⟨rfl, .inl (transfer_insert_temporary htemp _)⟩, ?_, hn.2⟩
      exact (transfer_insert_temporary htemp _).trans hn.1
    · simpa [overwrite] using hempty
    · rintro n t' ⟨hn, -, hfile⟩ hall
      simp only [decide_eq_true_eq] at hall
      refine ⟨hn, ?_⟩
      simpa [overwrite, hall] using hfile
  intro written t hwritten
  refine Prog.Follows.seq (Q := fun ok t => ok = true →
    Near env u t ∧ t.files.lookup temporary = some text) ?_ ?_
  · refine keeps_andThen (fun _ h => by cases h) fun hw => keeps_call fun b t' ht _ => ?_
    obtain ⟨hn, hfile⟩ := hwritten hw
    exact ⟨hn.trans ht.near, ht.files ▸ hfile⟩
  intro synced t hsynced
  refine Prog.Follows.seq (Q := fun _ t => synced = true →
    Near env u t ∧ t.files.lookup temporary = some text) ?_ ?_
  · refine keeps_call fun b t' ht hs => ?_
    obtain ⟨hn, hfile⟩ := hsynced hs
    exact ⟨hn.trans ht.near, ht.files ▸ hfile⟩
  intro closed t hclosed
  refine Prog.Follows.seq (Q := fun ok t => ok = true → P t) ?_ ?_
  · refine keeps_andThen (fun _ h => by cases h) fun hok => ?_
    rw [Bool.and_eq_true] at hok
    obtain ⟨hn, hfile⟩ := hclosed hok.1
    refine Prog.Follows.step fun t' ht hs c => ?_
    split
    · have hstep := hrename t' hs (hn.trans ht.near) (ht.files ▸ hfile)
      exact ⟨hstep.1, fun _ => hstep.2⟩
    · exact ⟨Steps.refl t', fun h => by cases h⟩
  intro renamed t hrenamed
  cases renamed with
  | false => exact fun h => (hfail _ h).elim
  | true =>
  refine Prog.Follows.seq (Q := fun _ t => P t) ?_ ?_
  · exact keeps_call fun _ t' ht => hwait ht (hrenamed rfl)
  intro dir t hP
  refine Prog.Follows.seq (Q := fun _ t => P t) ?_ ?_
  · exact keeps_andThen (fun _ => hP) fun _ => keeps_call fun _ t' ht => hwait ht hP
  intro ok t hP' _
  exact hP'

/-! ## Storing a manifest, reading one -/

/-- The transfers after a manifest took its place. -/
theorem transfer_rename_manifest (env : Env) {stem : Bytes} {m : Manifest} (hvalid : m.Valid)
    {events : List Event} (hevents : ∀ e ∈ events, e.stem = stem)
    (hfile : u.files.lookup ⟨stem, .manifestTmp⟩ = some m.toJson.dump) :
    let u' : Uploads := { u with files := u.files.rename ⟨stem, .manifestTmp⟩ ⟨stem, .manifest⟩,
                                 log := events ++ u.log }
    u'.transfer env stem = ⟨(u.transfer env stem).data, some m, accepted stem (events ++ u.log)⟩ ∧
      ∀ p, p ≠ stem → u'.transfer env p = u.transfer env p := by
  have hdata : ∀ p, (u.files.rename ⟨stem, .manifestTmp⟩ ⟨stem, .manifest⟩).lookup ⟨p, .data⟩ =
      u.files.lookup ⟨p, .data⟩ := fun p =>
    Files.lookup_rename_of_ne (by simp) (by simp)
  refine ⟨?_, fun p hp => ?_⟩
  · simp only [transfer, readData, readManifest, hdata, Files.lookup_rename_target hfile,
      Option.bind_some, hvalid.parse]
  · have hman : (u.files.rename ⟨stem, .manifestTmp⟩ ⟨stem, .manifest⟩).lookup ⟨p, .manifest⟩ =
        u.files.lookup ⟨p, .manifest⟩ := Files.lookup_rename_of_ne (by simp) (by simp [hp])
    simp only [transfer, readData, readManifest, hdata, hman, accepted_append_of_ne hp hevents]

/-- What a call reports that has stored a manifest. -/
def reported (id : Bytes) (m : Manifest) : Json :=
  Json.object [("transfer", .str id), ("next_seq", .uint m.nextSeq), ("bytes", .uint m.bytes),
    ("committed", .bool m.committed)]

/-- `Save` makes the move that its new manifest means, at its `rename`; the temporary file before it
is no part of a transfer. -/
theorem keeps_save {id stem : Bytes} {m : Manifest} {events : List Event} (hvalid : m.Valid)
    (hevents : ∀ e ∈ events, e.stem = stem)
    (hmove : ∀ t, Sound env t → Near env u t →
      let c : Transfer := ⟨(t.transfer env stem).data, some m, accepted stem (events ++ t.log)⟩
      c = t.transfer env stem ∨ Transfer.Move (setting env lost t) (t.transfer env stem) c) :
    Keeps env lost (fun r t => ∀ v, r = .ok v →
      v = reported id m ∧ (t.transfer env stem).manifest = some m) (save id stem m events) u := by
  refine Prog.Follows.seq (keeps_writeAtomic
    (P := fun t => (t.transfer env stem).manifest = some m) (.inr rfl) ?_ ?_) ?_
  · intro t t' ht hm
    rw [ht.near.1]
    exact hm
  · intro t hs hn hfile
    obtain ⟨hself, hother⟩ := transfer_rename_manifest env hvalid hevents hfile
    refine ⟨⟨rfl, ?_⟩, congrArg Transfer.manifest hself⟩
    rcases hmove t hs hn with heq | hm
    · refine .inl (funext fun p => ?_)
      by_cases hp : p = stem
      · subst hp
        exact hself.trans heq
      · exact hother p hp
    · refine .inr ⟨stem, ?_, hother⟩
      rw [hself]
      exact hm
  · intro status t hstatus
    cases hok : status.ok with
    | false => rintro v ⟨⟩
    | true =>
      rintro v ⟨⟩
      exact ⟨rfl, hstatus hok⟩

/-- `Load` returns the manifest of the transfer, which is valid. -/
theorem keeps_load {stem : Bytes} :
    Keeps env lost (fun r t => ∀ m, r = .ok m → m.Valid ∧ (t.transfer env stem).manifest = some m)
      (load env stem) u := by
  refine Prog.Follows.seq (Q := fun r t => (t.transfer env stem).manifest = r)
    (Prog.Follows.read Steps.refl fun t _ _ => rfl) ?_
  intro r t hr
  cases r with
  | none => rintro m ⟨⟩
  | some m =>
    refine Prog.Follows.seq (Q := fun _ t => m.Valid ∧ (t.transfer env stem).manifest = some m)
      (keeps_clock fun t' ht hs => ?_) ?_
    · have hm : (t'.transfer env stem).manifest = some m := by
        rw [ht.near.1]
        exact hr
      exact ⟨(hs.2 stem).valid hm, hm⟩
    · rintro now t' h
      split
      · rintro m' ⟨⟩
      · rintro m' ⟨⟩
        exact h

end

end Uploads

end VppJson
