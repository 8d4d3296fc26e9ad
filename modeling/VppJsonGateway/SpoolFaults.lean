import VppJsonGateway.Gateway

/-!
# Spools on a disk that fails

A spool whose writes or syncs fail reports it: a response that ends with success has the file it
would have on a disk that never fails.
-/

namespace VppJson.Spool

open Lib

/-- The spool on a disk that does not fail any more. -/
def sound (sp : Spool) : Spool := { sp with disk := [] }

/-- An operation went as on a sound disk, or the spool has noted the failure. -/
def Agrees (sp : Spool) (r r₀ : Bool × Spool) : Prop :=
  r.2.opened = sp.opened ∧
    (r₀ = (r.1, r.2.sound) ∨ (r.1 = false ∧ r.2.status.code = utf8 "storage_error"))

variable {env : Env} {sp : Spool}

/-- A write goes as on a sound disk, or its failure is noted. -/
theorem agrees_write (hopen : sp.opened = true) (frame : Json) (terminal : Bool) :
    Agrees sp (sp.write frame terminal) (sp.sound.write frame terminal) := by
  have hline : sp.sound.line frame = sp.line frame := rfl
  have hbytes : sp.sound.bytes = sp.bytes := rfl
  have hlimit : sp.sound.limit = sp.limit := rfl
  have hopened : sp.sound.opened = sp.opened := rfl
  unfold write
  simp only [hline, hbytes, hlimit, hopened]
  by_cases hbig : (sp.line frame).length > Limits.frameBytes ∨
      (terminal = false ∧ sp.bytes + (sp.line frame).length + 1024 > sp.limit)
  · rw [if_pos hbig, if_pos hbig]
    exact ⟨rfl, .inl rfl⟩
  have hclosed : ¬ sp.opened = false := by simp [hopen]
  rw [if_neg hbig, if_neg hclosed, if_neg hbig, if_neg hclosed]
  cases hdisk : sp.disk with
  | nil => exact ⟨by simp [writeAll, io, hdisk], .inl (by simp [writeAll, io, hdisk, sound])⟩
  | cons o ds =>
    cases o with
    | ok => exact ⟨by simp [writeAll, io, hdisk], .inl (by simp [writeAll, io, hdisk, sound])⟩
    | fail n =>
      exact ⟨by simp [writeAll, io, hdisk], .inr ⟨by simp [writeAll, io, hdisk],
        by simp [writeAll, io, hdisk]⟩⟩

/-- So do the writes of fragments, one after the other. -/
theorem agrees_writeFragments {digest : Bytes} {record total : Nat} {pieces : List Bytes} :
    ∀ {sp : Spool} {offset : Nat}, sp.opened = true →
      Agrees sp (writeFragments digest record total sp offset pieces)
        (writeFragments digest record total sp.sound offset pieces) := by
  induction pieces with
  | nil => exact fun _ => ⟨rfl, .inl rfl⟩
  | cons piece pieces ih =>
    intro sp offset hopen
    have hw := agrees_write hopen (fragment sp.id digest record total offset piece) false
    simp only [writeFragments]
    rw [show sp.sound.id = sp.id from rfl]
    generalize sp.write (fragment sp.id digest record total offset piece) false = r at hw ⊢
    obtain ⟨ok, sp'⟩ := r
    obtain ⟨hopened, heq | ⟨hfalse, hcode⟩⟩ := hw
    · rw [heq]
      cases ok with
      | false => exact ⟨hopened, .inl rfl⟩
      | true =>
        have hrest := @ih sp' (offset + block) (hopened.trans hopen)
        exact ⟨hrest.1.trans hopened, hrest.2⟩
    · dsimp only at hfalse
      subst hfalse
      exact ⟨hopened, .inr ⟨rfl, hcode⟩⟩

/-- So does the write of a record. -/
theorem agrees_writeRecord (env : Env) (hopen : sp.opened = true) (frame : Json) :
    Agrees sp (sp.writeRecord env frame) (sp.sound.writeRecord env frame) := by
  unfold writeRecord
  simp only
  split
  · exact agrees_write hopen frame false
  split
  · exact ⟨rfl, .inl rfl⟩
  · exact agrees_writeFragments hopen

/-- So does the write of an item. -/
theorem agrees_add (env : Env) (hopen : sp.opened = true) (item : Json) :
    Agrees sp (sp.add env item) (sp.sound.add env item) := by
  have hw := agrees_writeRecord env hopen (chunk sp.id item)
  unfold add
  rw [show sp.sound.id = sp.id from rfl, show sp.sound.status = sp.status from rfl]
  split
  · exact ⟨rfl, .inl rfl⟩
  generalize sp.writeRecord env (chunk sp.id item) = r at hw ⊢
  obtain ⟨ok, sp'⟩ := r
  obtain ⟨hopened, heq | ⟨hfalse, hcode⟩⟩ := hw
  · rw [heq]
    cases ok with
    | false => exact ⟨hopened, .inl rfl⟩
    | true => exact ⟨hopened, .inl rfl⟩
  · dsimp only at hfalse
    subst hfalse
    exact ⟨hopened, .inr ⟨rfl, hcode⟩⟩

/-- A spool that has noted a failure of the disk takes no more items. -/
theorem addAll_of_storage {items : List Json} (h : sp.status.code = utf8 "storage_error") :
    (sp.addAll env items).2 = sp := by
  induction items with
  | nil => rfl
  | cons item items ih =>
    have hok : sp.status.ok = false := by
      rw [Status.ok, h]
      rfl
    have hadd : sp.add env item = (false, sp) := by rw [add, if_pos hok]
    simp only [addAll, hadd]
    exact ih

/-- A run of items goes as on a sound disk, or the spool has noted the failure. -/
theorem agrees_addAll (env : Env) {items : List Json} : ∀ {sp : Spool}, sp.opened = true →
    (sp.addAll env items).2.opened = sp.opened ∧
      ((sp.sound.addAll env items).2 = (sp.addAll env items).2.sound ∨
        (sp.addAll env items).2.status.code = utf8 "storage_error") := by
  induction items with
  | nil => exact fun _ => ⟨rfl, .inl rfl⟩
  | cons item items ih =>
    intro sp hopen
    have ha := agrees_add env hopen item
    simp only [addAll]
    generalize sp.add env item = r at ha ⊢
    obtain ⟨ok, sp'⟩ := r
    obtain ⟨hopened, heq | ⟨-, hcode⟩⟩ := ha
    · rw [heq]
      have hrest := @ih sp' (hopened.trans hopen)
      exact ⟨hrest.1.trans hopened, hrest.2⟩
    · dsimp only at hcode hopened
      rw [addAll_of_storage hcode]
      exact ⟨hopened, .inr hcode⟩

/-- A response that `Finish` ends with success ends so on a sound disk, with the same file. -/
theorem finish_of_ok {status : Status} (hopen : sp.opened = true)
    (hok : (sp.finish status).1.ok = true) :
    (sp.sound.finish status).1.ok = true ∧
      (sp.sound.finish status).2.file = (sp.finish status).2.file ∧
      (sp.finish status).2.opened = true := by
  unfold finish at hok ⊢
  rw [show sp.sound.status = sp.status from rfl, show sp.sound.id = sp.id from rfl,
    show sp.sound.seq = sp.seq from rfl, show sp.sound.items = sp.items from rfl]
  split at hok
  · next hcode =>
    rw [Status.ok, hcode] at hok
    cases hok
  next hcode =>
  rw [if_neg hcode, if_neg hcode]
  simp only at hok ⊢
  generalize (if (if sp.status.ok = true then status else sp.status).ok = true then
    complete sp.id sp.seq sp.items else error sp.id (if sp.status.ok = true then status
      else sp.status)) = frame at hok ⊢
  have hw := agrees_write hopen frame true
  generalize sp.write frame true = r at hw hok ⊢
  obtain ⟨ok, sp'⟩ := r
  cases ok with
  | false => cases hok
  | true =>
    obtain ⟨hopened, heq | ⟨hfalse, -⟩⟩ := hw
    · rw [heq]
      dsimp only at hok hopened
      cases hdisk : sp'.disk with
      | nil =>
        simp only [fsync, io, hdisk, sound] at hok ⊢
        exact ⟨rfl, trivial, hopened.trans hopen⟩
      | cons o ds =>
        cases o with
        | ok =>
          simp only [fsync, io, hdisk, sound] at hok ⊢
          exact ⟨rfl, trivial, hopened.trans hopen⟩
        | fail n =>
          simp only [fsync, io, hdisk] at hok
          cases hok
    · cases hfalse

/-- The same for `Single`. -/
theorem single_of_ok {frame : Json} (hopen : sp.opened = true)
    (hok : (sp.single env frame).1.ok = true) :
    (sp.sound.single env frame).1.ok = true ∧
      (sp.sound.single env frame).2.file = (sp.single env frame).2.file ∧
      (sp.single env frame).2.opened = true := by
  have hw := agrees_writeRecord env hopen frame
  unfold single at hok ⊢
  generalize sp.writeRecord env frame = r at hw hok ⊢
  obtain ⟨ok, sp'⟩ := r
  obtain ⟨hopened, heq | ⟨hfalse, hcode⟩⟩ := hw
  · rw [heq]
    cases ok with
    | false => exact finish_of_ok (hopened.trans hopen) hok
    | true =>
      dsimp only at hok hopened
      cases hdisk : sp'.disk with
      | nil =>
        simp only [fsync, io, hdisk, sound] at hok ⊢
        exact ⟨rfl, trivial, hopened.trans hopen⟩
      | cons o ds =>
        cases o with
        | ok =>
          simp only [fsync, io, hdisk, sound] at hok ⊢
          exact ⟨rfl, trivial, hopened.trans hopen⟩
        | fail n =>
          simp only [fsync, io, hdisk] at hok
          cases hok
  · dsimp only at hfalse hcode
    subst hfalse
    simp only [finish, if_pos hcode] at hok
    rw [Status.ok, hcode] at hok
    cases hok

/-- A file that could not be created takes no frame. -/
theorem write_of_closed (hclosed : sp.opened = false) (frame : Json) (terminal : Bool) :
    (sp.write frame terminal).1 = false ∧ (sp.write frame terminal).2.opened = false := by
  unfold write
  simp only
  split
  · exact ⟨rfl, hclosed⟩
  · exact ⟨rfl, hclosed⟩

/-- A response without a file cannot be finished. -/
theorem finish_of_closed (hclosed : sp.opened = false) (status : Status) :
    (sp.finish status).1.ok = false := by
  unfold finish
  split
  · next hcode =>
    rw [Status.ok, hcode]
    rfl
  · simp only
    generalize (if (if sp.status.ok = true then status else sp.status).ok = true then
      complete sp.id sp.seq sp.items else error sp.id (if sp.status.ok = true then status
        else sp.status)) = frame
    have hw := (write_of_closed hclosed frame true).1
    generalize sp.write frame true = r at hw ⊢
    obtain ⟨ok, sp'⟩ := r
    dsimp only at hw
    subst hw
    rfl

/-- No record is written without a file. -/
theorem writeRecord_of_closed (env : Env) (hclosed : sp.opened = false) (frame : Json) :
    (sp.writeRecord env frame).1 = false ∧ (sp.writeRecord env frame).2.opened = false := by
  unfold writeRecord
  simp only
  split
  · exact write_of_closed hclosed frame false
  split
  · exact ⟨rfl, hclosed⟩
  · cases hpieces : blocks block frame.dump with
    | nil =>
      refine absurd hpieces (blocks_ne_nil ?_)
      exact List.ne_nil_of_length_pos (Json.length_dump_pos frame)
    | cons piece pieces =>
      obtain ⟨hfalse, hopened⟩ := write_of_closed hclosed
        (fragment sp.id (env.sha256 frame.dump) sp.seq frame.dump.length 0 piece) false
      simp only [writeFragments]
      generalize sp.write (fragment sp.id (env.sha256 frame.dump) sp.seq frame.dump.length 0 piece)
        false = r at hfalse hopened ⊢
      obtain ⟨ok, sp'⟩ := r
      dsimp only at hfalse hopened
      subst hfalse
      exact ⟨rfl, hopened⟩

/-- Nor is the only frame of a response. -/
theorem single_of_closed (hclosed : sp.opened = false) (frame : Json) :
    (sp.single env frame).1.ok = false := by
  obtain ⟨hfalse, hopened⟩ := writeRecord_of_closed env hclosed frame
  unfold single
  generalize sp.writeRecord env frame = r at hfalse hopened ⊢
  obtain ⟨ok, sp'⟩ := r
  dsimp only at hfalse hopened
  subst hfalse
  exact finish_of_closed hopened _

/-- **A response that was written with success** has the file of a disk that never fails. -/
theorem serve_of_ok {id : Bytes} {limit : Nat} {disk : List Io} {output : Output}
    (hok : ((create id limit disk).serve env output).1.ok = true) :
    ((create id limit).serve env output).1.ok = true ∧
      ((create id limit).serve env output).2.file =
        ((create id limit disk).serve env output).2.file ∧
      ((create id limit disk).serve env output).2.opened = true := by
  have hopen : (create id limit disk).opened = true := by
    by_contra hclosed
    rw [Bool.not_eq_true] at hclosed
    have hcode : (create id limit disk).status.code = utf8 "storage_error" := by
      unfold create at hclosed ⊢
      cases disk with
      | nil => cases hclosed
      | cons o ds =>
        cases o with
        | ok => cases hclosed
        | fail n => rfl
    have hfailed : ((create id limit disk).serve env output).1.ok = false := by
      cases output with
      | single frame => exact single_of_closed hclosed frame
      | stream items status =>
        rw [serve, addAll_of_storage hcode]
        exact finish_of_closed hclosed status
      | broken items frame =>
        rw [serve, addAll_of_storage hcode]
        split_ifs
        · exact single_of_closed hclosed frame
        · exact finish_of_closed hclosed {}
    rw [hfailed] at hok
    cases hok
  have hsound : (create id limit disk).sound = create id limit := by
    cases disk with
    | nil => rfl
    | cons o ds =>
      cases o with
      | ok => rfl
      | fail n => cases hopen
  rw [← hsound]
  cases output with
  | single frame => exact single_of_ok hopen hok
  | stream items status =>
    obtain ⟨hopened, heq | hcode⟩ := @agrees_addAll env items _ hopen
    · simp only [serve] at hok ⊢
      rw [heq]
      exact finish_of_ok (hopened.trans hopen) hok
    · simp only [serve, finish, if_pos hcode] at hok
      rw [Status.ok, hcode] at hok
      cases hok
  | broken items frame =>
    obtain ⟨hopened, heq | hcode⟩ := @agrees_addAll env items _ hopen
    · simp only [serve] at hok ⊢
      rw [heq, show ((create id limit disk).addAll env items).2.sound.status =
        ((create id limit disk).addAll env items).2.status from rfl]
      cases hstatus : ((create id limit disk).addAll env items).2.status.ok with
      | true =>
        rw [hstatus, if_pos rfl] at hok
        rw [if_pos rfl, if_pos rfl]
        exact single_of_ok (hopened.trans hopen) hok
      | false =>
        rw [hstatus, if_neg (by decide)] at hok
        rw [if_neg (by decide), if_neg (by decide)]
        exact finish_of_ok (hopened.trans hopen) hok
    · have hstatus : ((create id limit disk).addAll env items).2.status.ok = false := by
        rw [Status.ok, hcode]
        rfl
      simp only [serve, hstatus, Bool.false_eq_true, if_false, finish, if_pos hcode] at hok

/-- What the worker does with the spool, for an answer of the backend. -/
def outputOf (task : Task) (response : Response) : Output :=
  let id := idOf task.request
  let method := methodOf task.request
  let params := paramsOf task.request
  if task.available < 4096 then
    .single (answer id (.error ⟨"quota_exceeded", "Response storage quota exhausted"⟩))
  else if method = utf8 "interface.list" then
    if params.size ≠ 0 then
      .single (answer id (.error ⟨"invalid_params", "interface.list takes no parameters"⟩))
    else .stream response.list.1 response.list.2
  else if method = utf8 "interface.set_state" then
    if !isSetState params then
      .single (answer id
        (.error ⟨"invalid_params", "Expected interface name and state up or down"⟩))
    else
      .single (answer id
        (if response.setState.ok then .ok (Json.object []) else .error response.setState))
  else response.generic.output id

/-- The call of the worker is one run of its spool. -/
theorem run_eq_serve (task : Task) (response : Response) (disk : List Io) :
    task.run env response disk =
      (create (idOf task.request) (max 1024 task.available).toNat disk).serve env
        (outputOf task response) := by
  unfold Task.run runBackend outputOf
  simp only
  split_ifs <;> rfl

end VppJson.Spool
