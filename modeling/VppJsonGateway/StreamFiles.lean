import VppJsonGateway.VapiCodes

/-!
# Files of streams

The file of a response holds its items in turn, and ends with the frame for its status. Whether an
item was added shows in the status of the spool.
-/

namespace VppJson

open Lib Schema

/-! ## Items -/

namespace Spool

variable {env : Env} {sp : Spool}

/-- A frame that is written leaves the status. -/
theorem write_status {frame : Json} {terminal : Bool} (h : (sp.write frame terminal).1 = true) :
    (sp.write frame terminal).2.status = sp.status := by
  have heq : sp.write frame terminal = (true, (sp.write frame terminal).2) := by rw [← h]
  rw [(write_true heq).1]

/-- A record that is written leaves the status; induction on its fragments. -/
theorem writeRecord_status {frame : Json} (h : (sp.writeRecord env frame).1 = true) :
    (sp.writeRecord env frame).2.status = sp.status := by
  have hpieces : ∀ (pieces : List Bytes) (digest : Bytes) (record total : Nat) {sp : Spool}
      {offset : Nat}, (writeFragments digest record total sp offset pieces).1 = true →
        (writeFragments digest record total sp offset pieces).2.status = sp.status := by
    intro pieces digest record total
    induction pieces with
    | nil => exact fun _ => rfl
    | cons piece pieces ih =>
      intro sp offset h
      have hw := @write_status sp (fragment sp.id digest record total offset piece) false
      simp only [writeFragments] at h ⊢
      generalize sp.write (fragment sp.id digest record total offset piece) false = r at h hw ⊢
      obtain ⟨ok, sp'⟩ := r
      cases ok with
      | false => cases h
      | true => exact (ih h).trans (hw rfl)
  unfold writeRecord at h ⊢
  simp only at h ⊢
  split_ifs at h ⊢
  · exact write_status h
  · exact hpieces _ _ _ _ h

/-- The status of a spool that takes items tells whether the item was added. -/
theorem add_status (h : sp.status.ok = true) (item : Json) :
    (sp.add env item).2.status.ok = (sp.add env item).1 := by
  have htaken := @writeRecord_status env sp (chunk sp.id item)
  have hrefused := @writeRecord_refused env sp (chunk sp.id item)
  rw [add, if_neg (by simp [h])]
  generalize sp.writeRecord env (chunk sp.id item) = r at htaken hrefused ⊢
  obtain ⟨ok, sp'⟩ := r
  cases ok with
  | true => exact (congrArg Status.ok (htaken rfl)).trans h
  | false =>
    simp only at hrefused ⊢
    rcases hrefused trivial with ⟨-, hcode⟩ | ⟨-, hcode | hcode⟩
    · rw [Status.ok, hcode]
      rfl
    · rw [Status.ok, hcode]
      rfl
    · rw [Status.ok, hcode]
      rfl

/-- Items that are added in two goes. -/
theorem addAll_append (items items' : List Json) : ∀ sp : Spool,
    (sp.addAll env (items ++ items')).2 = ((sp.addAll env items).2.addAll env items').2 := by
  induction items with
  | nil => exact fun _ => rfl
  | cons item items ih =>
    intro sp
    simp only [List.cons_append, addAll]
    exact ih _

/-- Behind items of which one was refused nothing is added. -/
theorem ok_of_addAll {items : List Json} (h : (sp.addAll env items).2.status.ok = true) :
    sp.status.ok = true := by
  by_contra hnot
  rw [Bool.not_eq_true] at hnot
  rw [addAll_refused hnot] at h
  rw [hnot] at h
  cases h

/-- Every item is added, and the spool has no error then. -/
theorem forall_addAll_iff {items : List Json} : ∀ {sp : Spool}, sp.status.ok = true →
    ((∀ ok ∈ (sp.addAll env items).1, ok = true) ↔ (sp.addAll env items).2.status.ok = true) := by
  induction items with
  | nil => exact fun h => ⟨fun _ => h, fun _ _ hmem => (by cases hmem)⟩
  | cons item items ih =>
    intro sp h
    have hadd := @add_status env sp h item
    simp only [addAll]
    generalize sp.add env item = r at hadd ⊢
    obtain ⟨ok, sp'⟩ := r
    cases ok with
    | true =>
      rw [List.forall_mem_cons, ih hadd]
      exact ⟨fun h => h.2, fun h => ⟨rfl, h⟩⟩
    | false =>
      simp only at hadd ⊢
      rw [addAll_refused hadd, hadd]
      exact ⟨fun h => (by cases h false List.mem_cons_self), fun h => (by cases h)⟩

/-! ### Files -/

/-- The kinds of frames before the end of a response. -/
def Inner (frame : Json) : Prop :=
  frame.get? "type" = some (.str "chunk") ∨ frame.get? "type" = some (.str "fragment")

/-- Fragments do not end a response. -/
theorem inner_of_fragments {id digest : Bytes} {record total : Nat} {pieces : List Bytes} :
    ∀ {offset : Nat}, ∀ frame ∈ fragments id digest record total offset pieces, Inner frame := by
  induction pieces with
  | nil => exact fun _ h => (by cases h)
  | cons piece pieces ih =>
    intro offset frame hframe
    rcases List.mem_cons.1 hframe with rfl | hframe
    · exact .inr rfl
    · exact ih frame hframe

/-- The frames of an item do not end a response. -/
theorem inner_of_chunk {id : Bytes} {seq : Nat} {item : Json} :
    ∀ frame ∈ recordFrames env id seq (chunk id item), Inner frame := by
  intro frame hframe
  unfold recordFrames at hframe
  split_ifs at hframe
  · rw [List.mem_singleton.1 hframe]
    exact .inl rfl
  · exact inner_of_fragments frame hframe

/-- A proper part of a record is fragments. -/
theorem inner_of_part {id : Bytes} {seq : Nat} {record : Json} {part : List Json}
    (hpart : part <+: recordFrames env id seq record) (hne : part ≠ recordFrames env id seq record) :
    ∀ frame ∈ part, Inner frame := by
  intro frame hframe
  unfold recordFrames at hpart hne
  split_ifs at hpart hne
  · obtain ⟨rest, hrest⟩ := hpart
    cases part with
    | nil => cases hframe
    | cons x part =>
      obtain ⟨rfl, hnil⟩ := List.cons.inj hrest
      rw [(List.append_eq_nil_iff.1 hnil).1] at hne
      exact absurd rfl hne
  · exact inner_of_fragments frame (hpart.subset hframe)

/-- Nor do the frames of several items. -/
theorem inner_of_records {id : Bytes} {items : List Json} : ∀ {seq : Nat},
    ∀ frame ∈ recordsFrames env id seq (items.map (chunk id)), Inner frame := by
  induction items with
  | nil => exact fun _ h => (by cases h)
  | cons item items ih =>
    intro seq frame hframe
    rcases List.mem_append.1 hframe with hframe | hframe
    · exact inner_of_chunk frame hframe
    · exact ih frame hframe

/-- A file with one terminal record, at its end: `complete` or an error. Before it are chunks and
fragments only. -/
structure Terminated (env : Env) (id file : Bytes) (body : List Json) (last : Json) : Prop where
  file : file = linesOf (numbered 0 (body ++ [last])) ∨
    file = linesOf (numbered 0 (body ++ recordFrames env id body.length last))
  body : ∀ frame ∈ body, Inner frame
  last : (∃ chunks items, last = complete id chunks items) ∨ ∃ status, last = error id status

/-- The last frame says `complete` where both the call and the spool have succeeded, and is an error
otherwise. -/
theorem terminal_cases {id : Bytes} (h : sp.id = id) (status : Status) :
    (sp.terminal status = complete id sp.seq sp.items ∧ status.ok = true ∧ sp.status.ok = true) ∨
      ((∃ status', sp.terminal status = error id status') ∧
        ¬ (status.ok = true ∧ sp.status.ok = true)) := by
  unfold terminal
  simp only
  cases hspool : sp.status.ok with
  | false =>
    refine .inr ⟨⟨sp.status, ?_⟩, fun h => (by cases h.2)⟩
    simp [hspool, h]
  | true =>
    cases hstatus : status.ok with
    | false =>
      refine .inr ⟨⟨status, ?_⟩, fun h => (by cases h.1)⟩
      simp [hstatus, h]
    | true => exact .inl ⟨by simp [hstatus, h], rfl, rfl⟩

variable {id : Bytes} {limit : Nat} {frames : List Json}

/-- What is written of some items before the end of the response. -/
theorem Added.inner {items : List Json} {sp' : Spool} {count : Nat} {part : List Json}
    {r : List Bool × Spool} (h : Added env id limit [] items sp' count part r) :
    ∀ frame ∈ [] ++ recordsFrames env id ([] : List Json).length
      ((items.take count).map (chunk id)) ++ part, Inner frame := by
  refine List.forall_mem_append.2 ⟨inner_of_records, ?_⟩
  rcases h.ended with ⟨-, hpart, -⟩ | ⟨-, item, seq, -, hpart, hne⟩
  · rw [hpart]
    exact fun _ hframe => (by cases hframe)
  · exact inner_of_part hpart hne

/-- A spool without a refusal holds the records of all items. -/
theorem addAll_whole {items : List Json}
    (h : ((create id limit).addAll env items).2.status.ok = true) :
    Holding id limit (recordsFrames env id 0 (items.map (chunk id)))
        ((create id limit).addAll env items).2 ∧
      ((create id limit).addAll env items).2.items = items.length := by
  obtain ⟨count, part, hadded⟩ := addAll_added env items (holding_create id limit) rfl
  rcases hadded.ended with ⟨hcount, hpart, -⟩ | ⟨href, -⟩
  · have hholding := hadded.holding
    have hcounted := hadded.counted
    rw [hcount, hpart, List.take_length, List.append_nil] at hholding
    rw [hcount] at hcounted
    exact ⟨hholding, hcounted.trans (Nat.zero_add _)⟩
  · rw [href.not_ok] at h
    cases h

/-- `Finish` writes the last frame unless the disk has failed before. -/
theorem finish_of_ne (hcode : sp.status.code ≠ utf8 "storage_error") (status : Status) :
    sp.finish status =
      match sp.write (sp.terminal status) true with
      | (false, sp) => (⟨"storage_error", "Cannot persist response"⟩, sp)
      | (true, sp) =>
        match sp.fsync with
        | (false, sp) => (⟨"storage_error", "Cannot persist response"⟩, sp)
        | (true, sp) => ({}, sp) := by
  rw [finish, if_neg hcode]
  rfl

/-- A response that `Finish` has ended ends with its frame. -/
theorem Holding.finish_file (h : Holding id limit frames sp) {status : Status}
    (hok : (sp.finish status).1.ok = true) :
    (sp.finish status).2.file = linesOf (numbered 0 (frames ++ [sp.terminal status])) := by
  by_cases hcode : sp.status.code = utf8 "storage_error"
  · rw [finish, if_pos hcode, Status.ok, hcode] at hok
    cases hok
  rw [finish_of_ne hcode] at hok ⊢
  have hwrite := @write_true sp (sp.write (sp.terminal status) true).2 (sp.terminal status) true
  generalize sp.write (sp.terminal status) true = r at hok hwrite ⊢
  obtain ⟨ok, sp'⟩ := r
  cases ok with
  | false => cases hok
  | true =>
    obtain ⟨rfl, -⟩ := hwrite rfl
    simp only [fsync, io, h.disk, List.tail_nil]
    rw [numbered_append, linesOf_append, ← h.file, line_eq, h.seq, Nat.zero_add]

/-- A response that `Single` has ended ends with it, or with the status of its refusal. -/
theorem Holding.single_file (h : Holding id limit frames sp) (hbody : ∀ f ∈ frames, Inner f)
    {status : Status} (hok : (sp.single env (error id status)).1.ok = true) :
    ∃ body last, Terminated env id (sp.single env (error id status)).2.file body last ∧
      ∃ status', last = error id status' := by
  have hadds := writeRecord_adds env h (error id status) rfl
  unfold Spool.single at hok ⊢
  generalize sp.writeRecord env (error id status) = r at hadds hok ⊢
  obtain ⟨ok, sp'⟩ := r
  obtain ⟨-, ⟨hwrote, hh, -⟩ | ⟨hwrote, href, part, hpart, hne, hh⟩⟩ := hadds
  · dsimp only at hwrote hh
    subst hwrote
    simp only [fsync, io, hh.disk]
    exact ⟨frames, _, ⟨.inr hh.file, hbody, .inr ⟨status, rfl⟩⟩, status, rfl⟩
  · dsimp only at hwrote hh hok href
    subst hwrote
    have hfile := hh.finish_file hok
    rw [terminal_of_refusal href, hh.id_eq] at hfile
    refine ⟨frames ++ part, _, ⟨.inl hfile, ?_, .inr ⟨_, rfl⟩⟩, _, rfl⟩
    exact List.forall_mem_append.2 ⟨hbody, inner_of_part hpart hne⟩

end Spool

end VppJson
