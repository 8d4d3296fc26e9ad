import VppJsonGateway.TransferSafety

/-!
# Transfers are private to their session

All sessions share one directory, and a file is named by the digest of session and identifier.
A call touches only the files of the stem it names (`Only`), and what it answers and leaves of
its session's files depends on these files and the clock (`Alike`), except for the quotas of
`transfer.begin`, which count every manifest.
-/

namespace VppJson

open Lib

namespace Uploads

variable {env : Env} {u v : Uploads}

/-! ## The frame -/

/-- Only files of the stem differ. -/
def Touches (stem : Bytes) (u u' : Uploads) : Prop :=
  ∀ f : FileName, f.stem ≠ stem → u'.files.lookup f = u.files.lookup f

/-- Every step of the program touches only files of the stem. -/
def Only {α : Type} (stem : Bytes) (p : Prog Uploads Answer α) : Prop :=
  ∀ u, p.Follows Waits (Touches stem) (fun _ => True) (fun _ _ => True) u

/-- A program that does nothing writes no file. -/
theorem only_pure {α : Type} {stem : Bytes} (a : α) : Only stem (pure a) := fun _ => trivial

/-- Two programs in sequence write files of one transfer only, if both do. -/
theorem Only.bind {α β : Type} {stem : Bytes} {p : Prog Uploads Answer α}
    {k : α → Prog Uploads Answer β} (hp : Only stem p) (hk : ∀ a, Only stem (k a)) :
    Only stem (p >>= k) := fun u => Prog.Follows.seq (hp u) fun a t _ => hk a t

/-- A step writes files of one transfer only, if it does so for every answer of the file system. -/
theorem only_step {α : Type} {stem : Bytes} {f : Answer → Uploads → α × Uploads}
    (h : ∀ c u, Touches stem u (f c u).2) : Only stem (.step f) :=
  fun _ => Prog.Follows.step fun t _ _ c => ⟨h c t, trivial⟩

/-- Reading writes no file. -/
theorem only_read {α : Type} {stem : Bytes} (f : Uploads → α) : Only stem (.read f) :=
  only_step fun _ _ _ _ => rfl

/-- A call of the file system that changes no content. -/
theorem only_call {stem : Bytes} : Only stem call := only_step fun _ _ _ _ => rfl

/-- A file of the transfer is replaced. -/
theorem touches_insert {f : FileName} {content : Bytes} :
    Touches f.stem u { u with files := u.files.insert f content } := by
  intro g hg
  refine AList.lookup_insert_ne ?_
  rintro rfl
  exact hg rfl

/-- `OpenFile` truncates its own file only. -/
theorem only_openTrunc (f : FileName) : Only f.stem (openTrunc f) := by
  refine only_step fun c u => ?_
  split
  · exact touches_insert
  · exact fun _ _ => rfl

/-- `pwrite` changes its own file only. -/
theorem only_pwrite (f : FileName) (data : Bytes) (offset : Nat) :
    Only f.stem (pwrite f data offset) := by
  refine only_step fun c u => ?_
  split
  · exact fun _ _ => rfl
  · exact touches_insert

/-- `ftruncate` changes its own file only. -/
theorem only_ftruncate (f : FileName) (n : Nat) : Only f.stem (ftruncate f n) := by
  refine only_step fun c u => ?_
  split
  · exact fun _ _ => rfl
  · split
    · exact touches_insert
    · exact fun _ _ => rfl

/-- `rename` takes the old name away and replaces the new one, both of one transfer. -/
theorem only_rename {a b : FileName} (hab : a.stem = b.stem) (events : List Event) :
    Only b.stem (rename a b events) := by
  refine only_step fun c u => ?_
  split
  · intro g hg
    refine Files.lookup_rename_of_ne ?_ ?_
    · rintro rfl
      exact hg hab
    · rintro rfl
      exact hg rfl
  · exact fun _ _ => rfl

/-- The loop around `pwrite`, by induction on its rounds. -/
theorem only_pwriteLoop (f : FileName) (data : Bytes) (offset : Nat) :
    ∀ fuel written, Only f.stem (pwriteLoop f data offset fuel written) := by
  intro fuel
  induction fuel with
  | zero => exact fun written => only_pure written
  | succ fuel ih =>
    intro written
    rw [pwriteLoop]
    split
    · refine (only_pwrite f _ _).bind fun count => ?_
      split
      · exact only_pure _
      · exact ih _
    · exact only_pure _

/-- A call that is only made if those before it have succeeded. -/
theorem only_andThen {stem : Bytes} {a : Bool} {p : Prog Uploads Answer Bool} (hp : Only stem p) :
    Only stem (andThen a p) := by
  cases a with
  | false => exact only_pure _
  | true => exact hp

/-- `WriteAtomic` writes its target and the temporary file beside it. -/
theorem only_writeAtomic {target temporary : FileName} (h : temporary.stem = target.stem)
    (text : Bytes) (events : List Event) :
    Only target.stem (writeAtomic target temporary text events) := by
  refine (h ▸ only_openTrunc temporary).bind fun opened => ?_
  split
  · exact only_pure _
  refine ((h ▸ only_pwriteLoop temporary text 0 _ _).bind fun _ => only_pure _).bind fun _ => ?_
  refine (only_andThen only_call).bind fun _ => only_call.bind fun _ => ?_
  refine (only_andThen (only_rename h events)).bind fun renamed => ?_
  split
  · exact only_pure _
  exact only_call.bind fun _ => (only_andThen only_call).bind fun _ => only_pure _

/-- `Save` writes the manifest of its transfer. -/
theorem only_save {id stem : Bytes} {m : Manifest} {events : List Event} :
    Only stem (save id stem m events) := by
  refine (@only_writeAtomic ⟨stem, .manifest⟩ ⟨stem, .manifestTmp⟩ rfl _ _).bind fun _ => ?_
  split <;> exact only_pure _

/-- `Load` writes nothing. -/
theorem only_load {stem p : Bytes} : Only stem (load env p) := by
  refine (only_read _).bind fun r => ?_
  cases r with
  | none => exact only_pure _
  | some m =>
    refine (only_read _).bind fun _ => ?_
    split <;> exact only_pure _

/-- `begin` writes files of its transfer only. -/
theorem only_handleBegin {session id stem : Bytes} {params : Json} :
    Only stem (handleBegin env session id stem params) := by
  unfold handleBegin
  split
  · exact only_pure _
  refine (only_read _).bind fun r => ?_
  cases r with
  | some m =>
    simp only
    split <;> exact only_pure _
  | none =>
    refine (only_step fun _ _ _ _ => rfl).bind fun listed => ?_
    cases listed with
    | none => exact only_pure _
    | some quota =>
      simp only
      split
      · exact only_pure _
      refine (@only_writeAtomic ⟨stem, .data⟩ ⟨stem, .dataTmp⟩ rfl _ _).bind fun _ => ?_
      split
      · exact only_pure _
      · exact (only_read _).bind fun _ => only_save

/-- `chunk` writes files of its transfer only. -/
theorem only_handleChunk {id stem : Bytes} {m : Manifest} {params : Json} :
    Only stem (handleChunk env id stem m params) := by
  unfold handleChunk
  split
  · exact only_pure _
  simp only
  split_ifs
  · exact only_pure _
  · exact only_pure _
  · exact only_pure _
  · exact only_pure _
  refine (only_step fun _ _ _ _ => rfl).bind fun _ => ?_
  split
  · exact only_pure _
  refine ((only_pwriteLoop ⟨stem, .data⟩ _ _ _ _).bind fun _ =>
    (only_andThen (only_ftruncate ⟨stem, .data⟩ _)).bind fun _ => only_andThen only_call).bind
    fun _ => ?_
  split
  · exact only_pure _
  · exact only_save

/-- `commit` writes files of its transfer only. -/
theorem only_handleCommit {id stem : Bytes} {m : Manifest} {params : Json} :
    Only stem (handleCommit env id stem m params) := by
  unfold handleCommit
  split_ifs
  · exact only_pure _
  · exact only_pure _
  refine (only_read _).bind fun _ => ?_
  split
  · exact only_pure _
  · exact only_save

/-- `Handle` touches only the files of the transfer it names. -/
theorem only_handle {session method id : Bytes} {params : Json}
    (hid : params.get? "transfer" = some (.str id)) :
    Only (path env session id) (handle env session method params) := by
  rw [handle, hid]
  simp only
  split
  · exact only_pure _
  split
  · exact only_handleBegin
  refine only_load.bind fun r => ?_
  cases r with
  | error status => exact only_pure _
  | ok m =>
    simp only
    split_ifs
    · exact only_handleChunk
    · exact only_handleCommit
    · exact only_pure _
    · exact only_save
    · exact only_pure _

/-- `Resolve` touches no file. -/
theorem only_resolve {session id stem : Bytes} : Only stem (resolve env session id) := by
  refine only_load.bind fun r => ?_
  cases r with
  | error status => exact only_pure _
  | ok m =>
    simp only
    split_ifs
    · exact only_pure _
    · exact only_pure _
    refine (only_read _).bind fun _ => ?_
    split <;> exact only_pure _

/-! ## Two states that differ elsewhere -/

/-- Time passes. -/
def later (seconds : Nat) (u : Uploads) : Uploads := { u with now := u.now + seconds }

/-- Two states that agree on the clock and on some files. -/
structure Alike (names : Set FileName) (u v : Uploads) : Prop where
  now : v.now = u.now
  files : ∀ f ∈ names, v.files.lookup f = u.files.lookup f

/-- Two programs that give one result and leave the states alike, on every script. -/
abbrev Agree {α : Type} (names : Set FileName) (X : α → Prop) (p : Prog Uploads Answer α)
    (u v : Uploads) : Prop :=
  p.Coupled later X X (fun a s b t => a = b ∧ Alike names s t) p u v

section Alike

variable {names : Set FileName}

/-- States that are alike on some files are so on fewer. -/
theorem Alike.mono {names' : Set FileName} (h : Alike names u v) (hsub : names' ⊆ names) :
    Alike names' u v := ⟨h.now, fun f hf => h.files f (hsub hf)⟩

/-- Time passes in both states alike. -/
theorem Alike.later (h : Alike names u v) (d : Nat) : Alike names (later d u) (later d v) :=
  ⟨congrArg (· + d) h.now, h.files⟩

/-- A file written alike in both states. -/
theorem Alike.insert (h : Alike names u v) (f : FileName) (content : Bytes) :
    Alike (Set.insert f names) { u with files := u.files.insert f content }
      { v with files := v.files.insert f content } := by
  refine ⟨h.now, fun g hg => ?_⟩
  by_cases hgf : g = f
  · subst hgf
    rw [AList.lookup_insert, AList.lookup_insert]
  · rw [AList.lookup_insert_ne hgf, AList.lookup_insert_ne hgf]
    exact h.files g (hg.resolve_left hgf)

/-- A file renamed in both states leaves them alike, if the old name was among the files. -/
theorem Alike.rename (h : Alike names u v) {a b : FileName} (ha : a ∈ names) (log log' : List Event) :
    Alike names { u with files := u.files.rename a b, log := log }
      { v with files := v.files.rename a b, log := log' } := by
  refine ⟨h.now, fun g hg => ?_⟩
  have hsame := h.files a ha
  have hother := h.files g hg
  simp only [Files.rename, hsame]
  cases u.files.lookup a with
  | none => exact hother
  | some content =>
    by_cases hgb : g = b
    · subst hgb
      simp
    · rw [AList.lookup_insert_ne hgb, AList.lookup_insert_ne hgb]
      by_cases hga : g = a
      · subst hga
        simp
      · rw [AList.lookup_erase_ne hga, AList.lookup_erase_ne hga]
        exact hother

/-- A file among those exists in both states or in none. -/
theorem Alike.mem (h : Alike names u v) {f : FileName} (hf : f ∈ names) :
    f ∈ v.files ↔ f ∈ u.files := by
  rw [← AList.lookup_isSome, ← AList.lookup_isSome, h.files f hf]

/-- The manifest reads the same in both states. -/
theorem Alike.readManifest_eq (h : Alike names u v) {stem : Bytes}
    (hf : (⟨stem, .manifest⟩ : FileName) ∈ names) :
    readManifest env v stem = readManifest env u stem := by
  rw [readManifest, readManifest, h.files _ hf]

/-- The content reads the same in both states. -/
theorem Alike.readData_eq (h : Alike names u v) {stem : Bytes}
    (hf : (⟨stem, .data⟩ : FileName) ∈ names) : v.readData stem = u.readData stem :=
  h.files _ hf

/-! ## The calls on two states -/

section Programs

variable {α β : Type} {X : α → Prop}

/-- A program that does nothing agrees with itself in both states. -/
theorem agree_pure (h : Alike names u v) (a : α) : Agree names X (pure a) u v := .inl ⟨rfl, h⟩

/-- Two programs in sequence agree if the first does, and the second does from wherever the first
has ended alike. -/
theorem agree_seq {names' : Set FileName} {p : Prog Uploads Answer β}
    {k : β → Prog Uploads Answer α} (hp : Agree names' (fun _ => False) p u v)
    (hk : ∀ b s t, Alike names' s t → Agree names X (k b) s t) : Agree names X (p >>= k) u v := by
  refine Prog.Coupled.seq ?_ hp
  rintro a s b t ⟨rfl, h⟩
  exact hk a s t h

/-- A step agrees if each answer has the same result and leaves the states alike. -/
theorem agree_step (names : Set FileName) {f : Answer → Uploads → α × Uploads}
    (h : ∀ d c, (f c (later d u)).1 = (f c (later d v)).1 ∧
      Alike names (f c (later d u)).2 (f c (later d v)).2) : Agree names X (.step f) u v :=
  Prog.Coupled.step h

/-- Reading what the states have in common. -/
theorem agree_read (h : Alike names u v) {f : Uploads → α}
    (hf : ∀ {s t}, Alike names s t → f s = f t) : Agree names X (.read f) u v :=
  agree_step names fun d _ => ⟨hf (h.later d), h.later d⟩

end Programs

variable {X : Bool → Prop}

/-- A call of the file system that changes no content. -/
theorem agree_call (h : Alike names u v) : Agree names X call u v :=
  agree_step names fun d _ => ⟨rfl, h.later d⟩

/-- A call that is only made if those before it have succeeded. -/
theorem agree_andThen {a : Bool} {p : Prog Uploads Answer Bool} (h : Alike names u v)
    (hp : Agree names X p u v) : Agree names X (andThen a p) u v := by
  cases a with
  | false => exact agree_pure h false
  | true => exact hp

/-- The loop around `pwrite`, by induction on its rounds: both runs write the same octets. -/
theorem agree_pwriteLoop {f : FileName} (hf : f ∈ names) {data : Bytes} {offset : Nat}
    {X : Nat → Prop} : ∀ (fuel : Nat) {written : Nat} {u v : Uploads}, Alike names u v →
      Agree names X (pwriteLoop f data offset fuel written) u v := by
  intro fuel
  induction fuel with
  | zero => exact fun h => agree_pure h _
  | succ fuel ih =>
    intro written u v h
    rw [pwriteLoop]
    split
    · refine agree_seq (agree_step names fun d c => ?_) fun count s t hst => ?_
      · have hsame := (h.later d).files f hf
        simp only [hsame]
        cases (later d u).files.lookup f with
        | none => exact ⟨rfl, h.later d⟩
        | some content =>
          exact ⟨rfl, ((h.later d).insert f _).mono fun g hg => .inr hg⟩
      · split
        · exact agree_pure hst _
        · exact ih hst
    · exact agree_pure h _

/-- `WriteAtomic` starts from an empty temporary file, so it agrees whatever was there before. -/
theorem agree_writeAtomic {target temporary : FileName} {text : Bytes} {events : List Event}
    {X : Status → Prop} (h : Alike names u v) :
    Agree names X (writeAtomic target temporary text events) u v := by
  have hsub : names ⊆ Set.insert temporary names := fun _ hg => .inr hg
  have htemp : temporary ∈ Set.insert temporary names := .inl rfl
  -- after the file has been opened, the two states also agree on the temporary file
  refine Prog.Coupled.seq (P := fun a s b t => a = b ∧ Alike names s t ∧
    (a = true → Alike (Set.insert temporary names) s t)) ?_ (Prog.Coupled.step fun d c => ?_)
  · rintro opened s _ t ⟨rfl, hst, hopened⟩
    cases opened with
    | false => exact agree_pure hst _
    | true =>
    rw [if_neg (by decide)]
    refine agree_seq (agree_seq (agree_pwriteLoop htemp _ (hopened rfl)) fun _ _ _ h' =>
      agree_pure h' _) fun written s t h' => ?_
    refine agree_seq (agree_andThen h' (agree_call h')) fun synced s t h' => ?_
    refine agree_seq (agree_call h') fun closed s t h' => ?_
    refine agree_seq (agree_andThen h' (agree_step _ fun d c => ?_)) fun renamed s t h' => ?_
    · simp only [(h'.later d).mem htemp]
      split
      · exact ⟨rfl, (h'.later d).rename htemp _ _⟩
      · exact ⟨rfl, h'.later d⟩
    cases renamed with
    | false => exact agree_pure (h'.mono hsub) _
    | true =>
    rw [if_neg (by decide)]
    refine agree_seq (agree_call h') fun dir s t h' => ?_
    refine agree_seq (agree_andThen h' (agree_call h')) fun ok s t h' => ?_
    exact agree_pure (h'.mono hsub) _
  · split
    · exact ⟨rfl, ((h.later d).insert _ _).mono hsub, fun _ => (h.later d).insert _ _⟩
    · exact ⟨rfl, h.later d, fun hc => by cases hc⟩

variable {X : Except Status Json → Prop} {stem : Bytes}

/-- `Save` agrees. -/
theorem agree_save {id : Bytes} {m : Manifest} {events : List Event} (h : Alike names u v) :
    Agree names X (save id stem m events) u v := by
  refine agree_seq (agree_writeAtomic h) fun status s t h' => ?_
  split <;> exact agree_pure h' _

/-- `Load` agrees where the manifest is among the files. -/
theorem agree_load {Y : Except Status Manifest → Prop} (h : Alike names u v)
    (hman : (⟨stem, .manifest⟩ : FileName) ∈ names) : Agree names Y (load env stem) u v := by
  refine agree_seq (agree_read h fun hst => (hst.readManifest_eq hman).symm) fun r s t h' => ?_
  cases r with
  | none => exact agree_pure h' _
  | some m =>
    refine agree_seq (agree_read h' fun hst => hst.now.symm) fun now s t h' => ?_
    split <;> exact agree_pure h' _

/-- A chunk is written the same in both states. -/
theorem agree_writeChunk {data : Bytes} {offset : Nat} {Y : Bool → Prop} (h : Alike names u v)
    (hdata : (⟨stem, .data⟩ : FileName) ∈ names) :
    Agree names Y (writeChunk stem data offset) u v := by
  refine agree_seq (agree_pwriteLoop hdata _ h) fun _ s t h' => ?_
  refine agree_seq (agree_andThen h' (agree_step names fun d c => ?_)) fun cut s t h' =>
    agree_andThen h' (agree_call h')
  have hsame := (h'.later d).files _ hdata
  simp only [hsame]
  cases (later d s).files.lookup ⟨stem, .data⟩ with
  | none => exact ⟨rfl, h'.later d⟩
  | some content =>
    simp only
    split
    · exact ⟨rfl, ((h'.later d).insert _ _).mono fun g hg => .inr hg⟩
    · exact ⟨rfl, h'.later d⟩

/-- `chunk` agrees where the content is among the files. -/
theorem agree_handleChunk {id : Bytes} {m : Manifest} {params : Json} (h : Alike names u v)
    (hdata : (⟨stem, .data⟩ : FileName) ∈ names) :
    Agree names X (handleChunk env id stem m params) u v := by
  unfold handleChunk
  split
  · exact agree_pure h _
  simp only
  split_ifs
  · exact agree_pure h _
  · exact agree_pure h _
  · exact agree_pure h _
  · exact agree_pure h _
  refine agree_seq (agree_step names fun d c => ?_) fun opened s t h' => ?_
  · simp only [(h.later d).mem hdata]
    exact ⟨trivial, h.later d⟩
  split
  · exact agree_pure h' _
  refine agree_seq (agree_writeChunk h' hdata) fun written s t h' => ?_
  split
  · exact agree_pure h' _
  · exact agree_save h'

/-- `commit` agrees where the content is among the files. -/
theorem agree_handleCommit {id : Bytes} {m : Manifest} {params : Json} (h : Alike names u v)
    (hdata : (⟨stem, .data⟩ : FileName) ∈ names) :
    Agree names X (handleCommit env id stem m params) u v := by
  unfold handleCommit
  split_ifs
  · exact agree_pure h _
  · exact agree_pure h _
  refine agree_seq (agree_read h fun hst => ?_) fun digest s t h' => ?_
  · rw [fileHash, fileHash, hst.readData_eq hdata]
  split
  · exact agree_pure h' _
  · exact agree_save h'

/-- The answer of `transfer.begin` beyond a quota. -/
def quotaExceeded : Except Status Json :=
  .error ⟨"quota_exceeded", "Transfer reservation quota exceeded"⟩

/-- `begin` agrees where the manifest is among the files, but for the quotas of a transfer that is
new. -/
theorem agree_handleBegin {session id : Bytes} {params : Json} (h : Alike names u v)
    (hman : (⟨stem, .manifest⟩ : FileName) ∈ names)
    (hX : readManifest env u stem = none → X quotaExceeded) :
    Agree names X (handleBegin env session id stem params) u v := by
  unfold handleBegin
  split
  · exact agree_pure h _
  refine Prog.Coupled.seq (P := fun a s b t => a = b ∧ Alike names s t ∧
    a = readManifest env u stem) ?_ (Prog.Coupled.step fun d c =>
      ⟨((h.later d).readManifest_eq hman).symm, h.later d, rfl⟩)
  rintro r s _ t ⟨rfl, h', hr⟩
  cases r with
  | some m =>
    simp only
    split <;> exact agree_pure h' _
  | none =>
    have hquota := hX hr.symm
    refine Prog.Coupled.seq (P := fun a s b t => (a = none ↔ b = none) ∧ Alike names s t) ?_
      (Prog.Coupled.step fun d c => ?_)
    · rintro listed s listed' t ⟨hlisted, h'⟩
      cases listed with
      | none =>
        obtain rfl := hlisted.1 rfl
        exact agree_pure h' _
      | some quota =>
      cases listed' with
      | none => exact absurd (hlisted.2 rfl) (by simp)
      | some quota' =>
      -- the two listings may decide differently: the side that refuses is the excuse
      simp only
      split
      · split
        · exact .inr (.inl hquota)
        · exact hquota
      · split
        · exact hquota
        · refine agree_seq (agree_writeAtomic h') fun status s t h' => ?_
          split
          · exact agree_pure h' _
          · exact agree_seq (agree_read h' fun hst => hst.now.symm) fun now s t h' =>
              agree_save h'
    · simp only
      split
      · exact ⟨by simp, h'.later d⟩
      · exact ⟨Iff.rfl, h'.later d⟩

/-- `Handle` on two states that agree on the named transfer. -/
theorem agree_handle {session method : Bytes} {params : Json} (h : Alike names u v)
    (hnames : ∀ id, params.get? "transfer" = some (.str id) →
      (⟨path env session id, .manifest⟩ : FileName) ∈ names ∧
        (⟨path env session id, .data⟩ : FileName) ∈ names)
    (hX : ∀ id, params.get? "transfer" = some (.str id) → method = utf8 "transfer.begin" →
      readManifest env u (path env session id) = none → X quotaExceeded) :
    Agree names X (handle env session method params) u v := by
  unfold handle
  split
  · next id hid =>
    obtain ⟨hman, hdata⟩ := hnames id hid
    split
    · exact agree_pure h _
    simp only
    split
    · next hmethod => exact agree_handleBegin h hman (hX id hid hmethod)
    refine agree_seq (agree_load h hman) fun r s t h' => ?_
    cases r with
    | error status => exact agree_pure h' _
    | ok m =>
      simp only
      split_ifs
      · exact agree_handleChunk h' hdata
      · exact agree_handleCommit h' hdata
      · exact agree_pure h' _
      · exact agree_save h'
      · exact agree_pure h' _
  · exact agree_pure h _

/-- `Resolve` on two states that agree on the named transfer. -/
theorem agree_resolve {session id : Bytes} (h : Alike names u v)
    (hman : (⟨path env session id, .manifest⟩ : FileName) ∈ names)
    (hdata : (⟨path env session id, .data⟩ : FileName) ∈ names) :
    Agree names X (resolve env session id) u v := by
  refine agree_seq (agree_load h hman) fun r s t h' => ?_
  cases r with
  | error status => exact agree_pure h' _
  | ok m =>
    simp only
    split_ifs
    · exact agree_pure h' _
    · exact agree_pure h' _
    refine agree_seq (agree_read h' fun hst => ?_) fun text s t h' => ?_
    · rw [hst.readData_eq hdata]
    · split <;> exact agree_pure h' _

end Alike

/-! ## Sessions -/

/-- A call made for a session. -/
inductive Request where
  | handle (method : Bytes) (params : Json)
  | resolve (id : Bytes)

namespace Request

/-- The program of a call, for a session. -/
def program (env : Env) (session : Bytes) : Request → Prog Uploads Answer (Except Status Json)
  | .handle method params => Uploads.handle env session method params
  | .resolve id => Uploads.resolve env session id

/-- The transfer a call names. -/
def Names : Request → Bytes → Prop
  | .handle _ params, id => params.get? "transfer" = some (.str id)
  | .resolve id', id => id' = id

end Request

/-- The text `Path` hashes for a session and an identifier. -/
def hashed (name : Bytes × Bytes) : Bytes := name.1 ++ utf8 ":" ++ name.2

/-- The text shows the session, for sessions made by `RandomId`. -/
theorem hashed_session {r r' id id' : Bytes} (h : hashed (hex r, id) = hashed (hex r', id')) :
    hex r = hex r' := by
  have hcut : ∀ r id : Bytes, (hashed (hex r, id)).takeWhile (· ≠ 58) = hex r := by
    intro r id
    have hall : ∀ c ∈ hex r, (decide (c ≠ (58 : UInt8))) = true := by
      intro c hc
      have hdigit : ∀ d, d < 16 → hexByte d ≠ 58 := by decide
      simp only [hex, List.mem_flatMap, List.mem_cons, List.not_mem_nil, or_false] at hc
      obtain ⟨b, -, rfl | rfl⟩ := hc
      · have hb := b.toNat_lt
        simpa using hdigit _ (show b.toNat / 16 < 16 by omega)
      · simpa using hdigit _ (Nat.mod_lt _ (by decide))
    have hcolon : utf8 ":" = [58] := by decide
    rw [hashed, hcolon, List.append_assoc, List.takeWhile_append_of_pos hall]
    simp
  rw [← hcut r id, ← hcut r' id', h]

/-- The data files and manifests of a session's transfers, among those named. -/
def sessionFiles (env : Env) (names : Set (Bytes × Bytes)) (session : Bytes) : Set FileName :=
  { f | ∃ id, (session, id) ∈ names ∧ f.stem = path env session id ∧
    (f.kind = .data ∨ f.kind = .manifest) }

/-- A call touches no file of a transfer it does not name. -/
theorem only_program {session : Bytes} {call : Request} {stem : Bytes}
    (hstem : ∀ id, call.Names id → path env session id ≠ stem) (u : Uploads) :
    (call.program env session).Follows Waits
      (fun a b => ∀ kind, b.files.lookup ⟨stem, kind⟩ = a.files.lookup ⟨stem, kind⟩)
      (fun _ => True) (fun _ _ => True) u := by
  have key : ∀ {p : Prog Uploads Answer (Except Status Json)} {own : Bytes}, own ≠ stem →
      Only own p → p.Follows Waits
        (fun a b => ∀ kind, b.files.lookup ⟨stem, kind⟩ = a.files.lookup ⟨stem, kind⟩)
        (fun _ => True) (fun _ _ => True) u := fun hne hp =>
    (hp u).guarantee fun _ _ h kind => h ⟨stem, kind⟩ hne.symm
  cases call with
  | resolve id => exact key (hstem id rfl) only_resolve
  | handle method params =>
    by_cases hid : ∃ id, params.get? "transfer" = some (.str id)
    · obtain ⟨id, hid⟩ := hid
      exact key (hstem id hid) (only_handle hid)
    · change (Uploads.handle env session method params).Follows Waits _ _ _ u
      unfold Uploads.handle
      split
      · next id hid' => exact absurd ⟨id, hid'⟩ hid
      · trivial

/-- **Transfers are private to their session.** For two sessions and any call made for the first,
where SHA-256 has no collision on the texts hashed for the named transfers: no file of a transfer
of the second changes at any time while the call runs; and on two states that agree on the clock
and on the first session's transfers, the call gives one answer and leaves these transfers alike,
except that a `transfer.begin` of a transfer that does not exist may exceed a quota on one of
them. -/
theorem transfers_private {names : Set (Bytes × Bytes)} {r r' : Bytes} {call : Request}
    (hhash : Set.InjOn env.sha256 (Set.image hashed names)) (hne : hex r ≠ hex r')
    (hcall : ∀ id, call.Names id → (hex r, id) ∈ names) :
    (∀ u q u', (call.program env (hex r)).Goes Waits u q u' →
      ∀ f ∈ sessionFiles env names (hex r'), u'.files.lookup f = u.files.lookup f) ∧
    (∀ u v, Alike (sessionFiles env names (hex r)) u v → ∀ script answer rest u',
      (call.program env (hex r)).play later script u = some (answer, rest, u') →
      (∃ v', (call.program env (hex r)).play later script v = some (answer, rest, v') ∧
        Alike (sessionFiles env names (hex r)) u' v') ∨
      (∃ params id, call = .handle "transfer.begin" params ∧ call.Names id ∧
        readManifest env u (path env (hex r) id) = none ∧
        (answer = quotaExceeded ∨ ∃ rest' v',
          (call.program env (hex r)).play later script v = some (quotaExceeded, rest', v')))) := by
  refine ⟨?_, ?_⟩
  · rintro u q u' hgoes ⟨stem, kind⟩ ⟨id', hname, hstem, -⟩
    have hother : ∀ id, call.Names id → path env (hex r) id ≠ stem := by
      intro id hid heq
      refine hne (@hashed_session r r' id id' (hhash ?_ ?_ (heq.trans hstem)))
      · exact ⟨_, hcall id hid, rfl⟩
      · exact ⟨_, hname, rfl⟩
    refine (only_program hother u).goes hgoes Waits.refl Waits.trans (fun _ _ _ _ _ => trivial)
      (fun _ _ => rfl) (fun hab hbc kind => (hbc kind).trans (hab kind)) ?_ kind
    exact fun hab kind => by rw [hab.files]
  · intro u v halike script answer rest u' hplay
    have hown : ∀ id, call.Names id →
        (⟨path env (hex r) id, .manifest⟩ : FileName) ∈ sessionFiles env names (hex r) ∧
          (⟨path env (hex r) id, .data⟩ : FileName) ∈ sessionFiles env names (hex r) :=
      fun id hid => ⟨⟨id, hcall id hid, rfl, .inr rfl⟩, ⟨id, hcall id hid, rfl, .inl rfl⟩⟩
    have hagree : Agree (sessionFiles env names (hex r)) (fun a => a = quotaExceeded ∧
        ∃ params id, call = .handle "transfer.begin" params ∧ call.Names id ∧
          readManifest env u (path env (hex r) id) = none) (call.program env (hex r)) u v := by
      cases call with
      | resolve id => exact agree_resolve halike (hown id rfl).1 (hown id rfl).2
      | handle method params =>
        refine agree_handle halike hown fun id hid hmethod hnone => ?_
        exact ⟨rfl, params, id, by rw [hmethod], hid, hnone⟩
    rcases hagree.play hplay with ⟨_, v', hplay', rfl, hstate⟩ | hX | ⟨_, rest', v', hplay', hX⟩
    · exact .inl ⟨v', hplay', hstate⟩
    · obtain ⟨hanswer, params, id, h⟩ := hX
      exact .inr ⟨params, id, h.1, h.2.1, h.2.2, .inl hanswer⟩
    · obtain ⟨rfl, params, id, h⟩ := hX
      exact .inr ⟨params, id, h.1, h.2.1, h.2.2, .inr ⟨rest', v', hplay'⟩⟩

/-- The digests of the names of one transfer in two sessions. -/
def twoSessions : Env where
  strtod _ := none
  digest data :=
    if data = hashed (hex (List.replicate 16 0), "t1") then ⟨[0x4C, 0x32, 0x95, 0xD5, 0x7B, 0x1D, 0xF6, 0xE1, 0x35, 0x09, 0xD7, 0x44, 0xAB, 0xD5,
    0x5A, 0x3E, 0xD4, 0x97, 0xE4, 0x83, 0xED, 0x83, 0x41, 0x97, 0x18, 0xBA, 0x33, 0x7C,
    0xDE, 0xD4, 0xA4, 0x83], rfl⟩
    else if data = hashed (hex (List.replicate 16 255), "t1") then ⟨[0xE1, 0x28, 0x07, 0x92, 0xCD, 0xA1, 0xA3, 0x2A, 0x2C, 0xF8, 0x95, 0x4E, 0x3F, 0xFD,
    0x6B, 0xAB, 0x41, 0x44, 0x3D, 0x64, 0x88, 0xC2, 0x7A, 0x7D, 0x8F, 0x5D, 0x87, 0x2F,
    0xDF, 0x92, 0x41, 0x4C], rfl⟩
    else ⟨List.replicate 32 0, length_zeros⟩

/-- Beginning a transfer of one session leaves the other's as it is. Where the transfer exists, the
answer does not depend on the other's. -/
theorem transfers_private_two_sessions :
    let names : Set (Bytes × Bytes) :=
      { n | n.2 = utf8 "t1" ∧ (n.1 = hex (List.replicate 16 0) ∨ n.1 = hex (List.replicate 16 255)) }
    let call := Request.handle "transfer.begin" (Json.object [("bytes", .uint 2),
      ("sha256", .str (hex (List.replicate 32 0))), ("transfer", .str "t1")])
    let session := hex (List.replicate 16 0)
    call.Names "t1" ∧
    (∀ u q u', (call.program twoSessions session).Goes Waits u q u' →
      ∀ f ∈ sessionFiles twoSessions names (hex (List.replicate 16 255)),
        u'.files.lookup f = u.files.lookup f) ∧
    ∀ u v, Alike (sessionFiles twoSessions names session) u v →
      readManifest twoSessions u (path twoSessions session "t1") ≠ none →
        ∀ script answer rest u',
          (call.program twoSessions session).play later script u = some (answer, rest, u') →
            ∃ v', (call.program twoSessions session).play later script v = some (answer, rest, v') ∧
              Alike (sessionFiles twoSessions names session) u' v' := by
  intro names call session
  have hget : (Json.object [("bytes", .uint 2), ("sha256", .str (hex (List.replicate 32 0))),
      ("transfer", .str "t1")]).get? "transfer" = some (.str (utf8 "t1")) := rfl
  have hnames : ∀ id, call.Names id → id = utf8 "t1" := by
    intro id hid
    cases hget.symm.trans hid
    rfl
  have hhash : Set.InjOn twoSessions.sha256 (Set.image hashed names) := by
    rintro _ ⟨⟨s, id⟩, ⟨rfl, rfl | rfl⟩, rfl⟩ _ ⟨⟨s', id'⟩, ⟨rfl, rfl | rfl⟩, rfl⟩ h
    · rfl
    · exact absurd h (by decide +kernel)
    · exact absurd h (by decide +kernel)
    · rfl
  obtain ⟨hframe, halike⟩ := @transfers_private twoSessions names (List.replicate 16 0)
    (List.replicate 16 255) call hhash (by decide) fun id hid => ⟨hnames id hid, .inl rfl⟩
  refine ⟨hget, hframe, fun u v h hexists script answer rest u' hplay => ?_⟩
  rcases halike u v h script answer rest u' hplay with hsame | ⟨-, id, -, hid, hnone, -⟩
  · exact hsame
  · rw [hnames id hid] at hnone
    exact absurd hnone hexists

end Uploads

end VppJson
