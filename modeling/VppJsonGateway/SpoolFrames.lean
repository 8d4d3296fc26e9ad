import VppJsonGateway.SpoolBounds
import VppJsonGateway.SpoolFaults

/-!
# Every frame of a response names its request

Whatever a spool refuses and however its disk fails, a response that ends with success is a file of
frames of one request, one a line, numbered from zero.
-/

namespace VppJson

open Lib

/-- The text of a response of these frames. -/
def response (frames : List Json) : Bytes := linesOf (numbered 0 frames)

/-- An answer names its request. -/
theorem names_answer (id : Bytes) (outcome : Except Status Json) : Names id (answer id outcome) := by
  cases outcome with
  | ok value => exact names_result id value
  | error status => exact names_error id status

/-- The number of a frame is not its request. -/
theorem Names.set_seq {id : Bytes} {frame : Json} (h : Names id frame) (seq : Json) :
    Names id (frame.set "seq" seq) := by
  obtain ⟨m, rfl⟩ := Json.isObject_iff.1 h.1
  refine ⟨rfl, ?_⟩
  rw [Json.get?_set_of_ne (by decide)]
  exact h.2

/-- A number does not change the name. -/
theorem names_numbered {id : Bytes} {frames : List Json} :
    ∀ {seq : Nat}, (∀ f ∈ frames, Names id f) → ∀ f ∈ numbered seq frames, Names id f := by
  induction frames with
  | nil => exact fun _ _ hf => absurd hf List.not_mem_nil
  | cons frame frames ih =>
    intro seq h f hf
    rcases List.mem_cons.1 hf with rfl | hf
    · exact (h frame List.mem_cons_self).set_seq _
    · exact ih (fun g hg => h g (List.mem_cons_of_mem _ hg)) f hf

namespace Spool

/-- A spool on a sound disk whose file holds frames of its request. -/
structure Written (id : Bytes) (frames : List Json) (sp : Spool) : Prop where
  id_eq : sp.id = id
  opened : sp.opened = true
  disk : sp.disk = []
  file : sp.file = response frames
  seq : sp.seq = frames.length
  names : ∀ f ∈ frames, Names id f

section

variable (env : Env) {id : Bytes} {frames : List Json} {sp : Spool}

/-- A new file has no frames. -/
theorem written_create (id : Bytes) (limit : Nat) : Written id [] (create id limit) :=
  ⟨rfl, rfl, rfl, rfl, rfl, fun _ h => absurd h List.not_mem_nil⟩

theorem Written.status (h : Written id frames sp) (status : Status) :
    Written id frames { sp with status } := ⟨h.1, h.2, h.3, h.4, h.5, h.6⟩

theorem Written.items (h : Written id frames sp) (items : Nat) :
    Written id frames { sp with items } := ⟨h.1, h.2, h.3, h.4, h.5, h.6⟩

/-- A frame that was written names the request. -/
theorem Written.write (h : Written id frames sp) {frame : Json} (hframe : Names id frame)
    (terminal : Bool) : ∃ frames', Written id frames' (sp.write frame terminal).2 := by
  unfold Spool.write
  dsimp only
  split_ifs with hlong hclosed
  · exact ⟨frames, h.status _⟩
  · rw [h.opened] at hclosed
    cases hclosed
  · simp only [writeAll, io, h.disk]
    refine ⟨frames ++ [frame], h.id_eq, h.opened, rfl, ?_, ?_, ?_⟩
    · rw [response, numbered_append, linesOf_append, h.file, line_eq, h.seq, Nat.zero_add]
      rfl
    · simp [h.seq]
    · intro f hf
      rcases List.mem_append.1 hf with hf | hf
      · exact h.names f hf
      · exact List.mem_singleton.1 hf ▸ hframe

/-- So do fragments. -/
theorem Written.writeFragments {digest : Bytes} {record total : Nat} {pieces : List Bytes} :
    ∀ {frames : List Json} {sp : Spool} (offset : Nat), Written id frames sp →
      ∃ frames', Written id frames' (writeFragments digest record total sp offset pieces).2 := by
  induction pieces with
  | nil => exact fun _ h => ⟨_, h⟩
  | cons piece pieces ih =>
    intro frames sp offset h
    have hfragment : Names id (fragment sp.id digest record total offset piece) :=
      ⟨rfl, congrArg (some ∘ Json.str) h.id_eq⟩
    obtain ⟨frames', h'⟩ := h.write hfragment false
    rw [Spool.writeFragments]
    split
    · next heq => exact ⟨frames', by rw [heq] at h'; exact h'⟩
    · next heq =>
      rw [heq] at h'
      exact ih _ h'

/-- So does a record, fragmented or not. -/
theorem Written.writeRecord (h : Written id frames sp) {frame : Json} (hframe : Names id frame) :
    ∃ frames', Written id frames' (sp.writeRecord env frame).2 := by
  unfold Spool.writeRecord
  dsimp only
  split_ifs
  · exact h.write hframe false
  · exact ⟨frames, h.status _⟩
  · exact h.writeFragments 0

/-- An item is written in frames that name the request. -/
theorem Written.add (h : Written id frames sp) (item : Json) :
    ∃ frames', Written id frames' (sp.add env item).2 := by
  have hchunk : Names id (chunk sp.id item) := ⟨rfl, congrArg (some ∘ Json.str) h.id_eq⟩
  obtain ⟨frames', h'⟩ := h.writeRecord env hchunk
  unfold Spool.add
  split_ifs
  · exact ⟨frames, h⟩
  · split
    · next heq => exact ⟨frames', by rw [heq] at h'; exact h'⟩
    · next heq =>
      rw [heq] at h'
      exact ⟨frames', h'.items _⟩

/-- So are all items. -/
theorem Written.addAll (items : List Json) : ∀ {frames : List Json} {sp : Spool},
    Written id frames sp → ∃ frames', Written id frames' (addAll env sp items).2 := by
  induction items with
  | nil => exact fun h => ⟨_, h⟩
  | cons item items ih =>
    intro frames sp h
    obtain ⟨frames', h'⟩ := h.add env item
    exact ih h'

/-- So is the terminal frame. -/
theorem Written.finish (h : Written id frames sp) (status : Status) :
    ∃ frames', Written id frames' (sp.finish status).2 := by
  have hterminal : Names id (sp.terminal status) := by
    unfold terminal
    dsimp only
    split_ifs <;> exact ⟨rfl, congrArg (some ∘ Json.str) h.id_eq⟩
  obtain ⟨frames', h'⟩ := h.write hterminal true
  unfold Spool.finish
  split
  · exact ⟨frames, h⟩
  · dsimp only
    rw [← terminal]
    split
    · next heq => exact ⟨frames', by rw [heq] at h'; exact h'⟩
    · next sp' heq =>
      rw [heq] at h'
      have hdisk : sp'.disk = [] := h'.disk
      simp only [fsync, io, hdisk]
      exact ⟨frames', h'⟩

/-- So is the only frame of a response without items. -/
theorem Written.single (h : Written id frames sp) {frame : Json} (hframe : Names id frame) :
    ∃ frames', Written id frames' (sp.single env frame).2 := by
  obtain ⟨frames', h'⟩ := h.writeRecord env hframe
  unfold Spool.single
  split
  · next sp' heq =>
    rw [heq] at h'
    exact Written.finish h' _
  · next sp' heq =>
    rw [heq] at h'
    have hdisk : sp'.disk = [] := h'.disk
    simp only [fsync, io, hdisk]
    exact ⟨frames', h'⟩

/-- What is done with a spool is about the request. -/
def About (id : Bytes) : Output → Prop
  | .single frame => Names id frame
  | .stream _ _ => True
  | .broken _ frame => Names id frame

/-- **The file of a response** that ends with success. -/
theorem serve_names {limit : Nat} {disk : List Io} {output : Output} (habout : About id output)
    (hok : ((create id limit disk).serve env output).1.ok = true) :
    ∃ frames, (∀ f ∈ frames, Names id f) ∧
      ((create id limit disk).serve env output).2.file = response frames := by
  obtain ⟨-, hfile, -⟩ := serve_of_ok hok
  have hcreate := written_create id limit
  have hserve : ∃ frames, Written id frames ((create id limit).serve env output).2 := by
    cases output with
    | single frame => exact hcreate.single env habout
    | stream items status =>
      obtain ⟨frames, h⟩ := hcreate.addAll env items
      exact h.finish status
    | broken items frame =>
      obtain ⟨frames, h⟩ := hcreate.addAll env items
      simp only [serve]
      split_ifs
      · exact h.single env habout
      · exact h.finish {}
  obtain ⟨frames, h⟩ := hserve
  exact ⟨frames, h.names, hfile.symm.trans h.file⟩

/-- What the worker answers is about the request it was given. -/
theorem about_outputOf (task : Task) (response : Response) :
    About (idOf task.request) (outputOf task response) := by
  unfold outputOf
  dsimp only
  split_ifs
  · exact names_answer _ _
  · exact names_answer _ _
  · exact trivial
  · exact names_answer _ _
  · exact names_answer _ _
  · exact names_answer _ _
  · cases hreaction : response.generic with
    | reply outcome => exact names_answer _ outcome
    | stream items status => exact trivial
    | broken items status => exact names_error _ _

end

/-- **The frames of a worker.** Whatever the backend answers and however the disk fails, a call of
the worker that ends with success leaves frames of its request, numbered from zero, one a line. -/
theorem run_names (env : Env) (task : Task) (r : Response) (disk : List Io)
    (hok : (task.run env r disk).1.ok = true) :
    ∃ frames, (∀ f ∈ frames, Names (idOf task.request) f) ∧
      (task.run env r disk).2.file = response frames := by
  rw [run_eq_serve] at hok ⊢
  exact serve_names env (about_outputOf task r) hok

/-- A listing. -/
def sampleListing : Task where
  request := Json.object [("id", .str "r1"), ("method", .str "interface.list")]
  path := "f1"
  available := 10000

/-- A listing that the backend cuts short after one interface. -/
theorem run_names_list :
    ∃ frames, (∀ f ∈ frames, Names "r1" f) ∧
      (sampleListing.run Env.plain
        { list := ([.null], ⟨"unavailable", "VPP is not connected"⟩) } []).2.file =
        response frames :=
  run_names Env.plain sampleListing { list := ([.null], ⟨"unavailable", "VPP is not connected"⟩) }
    [] (by decide +kernel)

end Spool

end VppJson
