import VppJsonGateway.RoundTrip

/-!
# Response files are well formed and bounded

A spool refuses a line that is too long or would use up the reserve for the terminal frame, in the
middle of a record if need be, and from then on refuses every item. `Holding` is what the file
holds at any moment; each operation either adds its frames or keeps a proper part of them and notes
why (`Adds`). The terminal frame always fits the reserve, so a file ends with one terminal record
and stays within its limit.
-/

namespace VppJson.Spool

open Lib

/-- The spool holds these frames, one a line, with the reserve for a terminal frame left. -/
structure Holding (id : Bytes) (limit : Nat) (frames : List Json) (sp : Spool) : Prop where
  id_eq : sp.id = id
  limit_eq : sp.limit = limit
  opened : sp.opened = true
  disk : sp.disk = []
  file : sp.file = linesOf (numbered 0 frames)
  seq : sp.seq = frames.length
  bytes : sp.bytes = sp.file.length
  items : sp.items ≤ frames.length
  room : frames = [] ∨ sp.bytes + 1024 ≤ limit
  short : ∀ f ∈ numbered 0 frames, f.dump.length + 1 ≤ Limits.frameBytes
  objects : ∀ f ∈ frames, f.isObject = true

/-- The statuses with which a spool refuses a record. -/
def Refusal (status : Status) : Prop :=
  status = ⟨"quota_exceeded", "Response spool or record limit exceeded"⟩ ∨
    status = ⟨"payload_too_large", "Logical response exceeds 16 MiB"⟩

/-- An operation that adds the frames of a record, or a proper part of them and refuses it. -/
def Adds (id : Bytes) (limit : Nat) (frames record : List Json) (sp : Spool) (r : Bool × Spool) :
    Prop :=
  r.2.items = sp.items ∧
    (r.1 = true ∧ Holding id limit (frames ++ record) r.2 ∧ r.2.status = sp.status ∨
      r.1 = false ∧ Refusal r.2.status ∧ ∃ part, part <+: record ∧ part ≠ record ∧
        Holding id limit (frames ++ part) r.2)

section

variable {id : Bytes} {limit : Nat} {frames : List Json} {sp : Spool}

/-- An empty file holds no frames. -/
theorem holding_create (id : Bytes) (limit : Nat) : Holding id limit [] (create id limit) where
  id_eq := rfl
  limit_eq := rfl
  opened := rfl
  disk := rfl
  file := rfl
  seq := rfl
  bytes := rfl
  items := le_rfl
  room := .inl rfl
  short := by simp [numbered]
  objects := by simp

/-- A change of the status leaves what the file holds. -/
theorem Holding.status (h : Holding id limit frames sp) (status : Status) :
    Holding id limit frames { sp with status } :=
  ⟨h.1, h.2, h.3, h.4, h.5, h.6, h.7, h.8, h.9, h.10, h.11⟩

/-- The last frame is numbered by those before it. -/
theorem mem_numbered_append {frame : Json} {f : Json}
    (hf : f ∈ numbered 0 (frames ++ [frame])) :
    f ∈ numbered 0 frames ∨ f = frame.set "seq" (.uint frames.length) := by
  rw [numbered_append] at hf
  rcases List.mem_append.1 hf with hf | hf
  · exact .inl hf
  · rw [numbered, numbered, List.mem_singleton, Nat.zero_add] at hf
    exact .inr hf

/-- A frame that fits is added, and one that does not is refused. -/
theorem write_adds (h : Holding id limit frames sp) (frame : Json) (hobj : frame.isObject = true) :
    Adds id limit frames [frame] sp (sp.write frame false) := by
  have hline := line_eq sp frame
  unfold write
  dsimp only
  split
  · refine ⟨rfl, .inr ⟨rfl, .inl rfl, [], List.nil_prefix, by simp, ?_⟩⟩
    rw [List.append_nil]
    exact h.status _
  · next hroom =>
    simp only [not_or, not_lt, true_and] at hroom
    rw [if_neg (by simp [h.opened])]
    unfold writeAll io
    rw [h.disk]
    refine ⟨rfl, .inl ⟨rfl, ?_, rfl⟩⟩
    exact {
      id_eq := h.id_eq
      limit_eq := h.limit_eq
      opened := h.opened
      disk := h.disk
      file := by rw [numbered_append, linesOf_append, ← h.file, hline, h.seq, Nat.zero_add]
      seq := by simp [h.seq]
      bytes := by simp [h.bytes]
      items := by
        have := h.items
        simp only [List.length_append, List.length_singleton]
        omega
      room := .inr (by rw [← h.limit_eq]; exact hroom.2)
      short := by
        intro f hf
        rcases mem_numbered_append hf with hf | rfl
        · exact h.short f hf
        · have := hroom.1
          rw [line, List.length_append, List.length_singleton, h.seq] at this
          exact this
      objects := by
        intro f hf
        rcases List.mem_append.1 hf with hf | hf
        · exact h.objects f hf
        · rw [List.mem_singleton.1 hf]
          exact hobj }

/-- The fragments of a record, in any number. -/
theorem writeFragments_adds {digest : Bytes} {record total : Nat} {pieces : List Bytes} :
    ∀ {frames : List Json} {sp : Spool} (offset : Nat), Holding id limit frames sp →
      Adds id limit frames (fragments id digest record total offset pieces) sp
        (writeFragments digest record total sp offset pieces) := by
  induction pieces with
  | nil =>
    intro frames sp offset h
    refine ⟨rfl, .inl ⟨rfl, ?_, rfl⟩⟩
    rw [fragments, List.append_nil]
    exact h
  | cons piece pieces ih =>
    intro frames sp offset h
    have hw := write_adds h (fragment sp.id digest record total offset piece) rfl
    rw [h.id_eq] at hw
    simp only [writeFragments, fragments, h.id_eq]
    generalize sp.write (fragment id digest record total offset piece) false = r at hw ⊢
    obtain ⟨ok, sp'⟩ := r
    obtain ⟨hitems, ⟨hok, hh, hst⟩ | ⟨hok, href, part, hpart, hne, hh⟩⟩ := hw
    · dsimp only at hok hitems hst hh
      subst hok
      obtain ⟨hitems', hcase⟩ := ih (offset + block) hh
      refine ⟨hitems'.trans hitems, ?_⟩
      rcases hcase with ⟨hok', hh', hst'⟩ | ⟨hok', href', part', hpart', hne', hh'⟩
      · refine .inl ⟨hok', ?_, hst'.trans hst⟩
        rwa [List.append_assoc, List.singleton_append] at hh'
      · refine .inr ⟨hok', href', _ :: part', List.cons_prefix_cons.2 ⟨rfl, hpart'⟩,
          fun heq => hne' (List.cons.inj heq).2, ?_⟩
        rwa [List.append_assoc, List.singleton_append] at hh'
    · dsimp only at hok hitems href hh
      subst hok
      have hnil : part = [] := by
        cases part with
        | nil => rfl
        | cons x xs =>
          have := hpart.length_le
          obtain ⟨t, ht⟩ := hpart
          rw [List.cons_append] at ht
          obtain ⟨rfl, hxs⟩ := List.cons.inj ht
          rw [(List.append_eq_nil_iff.1 hxs).1] at hne
          exact absurd rfl hne
      subst hnil
      exact ⟨hitems, .inr ⟨rfl, href, [], List.nil_prefix, by simp, hh⟩⟩

/-- The frames of a record are never none. -/
theorem recordFrames_ne_nil (env : Env) (id : Bytes) (seq : Nat) (frame : Json) :
    recordFrames env id seq frame ≠ [] := by
  rw [← List.length_pos_iff, Assembler.length_recordFrames]
  exact one_le_lineCount frame

/-- A record adds its one frame, or its fragments as far as they fit. -/
theorem writeRecord_adds (env : Env) (h : Holding id limit frames sp) (frame : Json)
    (hobj : frame.isObject = true) :
    Adds id limit frames (recordFrames env id frames.length frame) sp (sp.writeRecord env frame) := by
  have hne := recordFrames_ne_nil env id frames.length frame
  unfold writeRecord
  dsimp only
  split
  · next hshort =>
    rw [recordFrames, if_pos hshort]
    exact write_adds h frame hobj
  · next hlong =>
    split
    · refine ⟨rfl, .inr ⟨rfl, .inr rfl, [], List.nil_prefix, hne.symm, ?_⟩⟩
      rw [List.append_nil]
      exact h.status _
    · rw [recordFrames, if_neg hlong, h.seq]
      exact writeFragments_adds 0 h

/-- What a run of `Add` calls leaves: the records of the first `count` items and, unless those
are all, a proper part of the next. -/
structure Added (env : Env) (id : Bytes) (limit : Nat) (frames items : List Json) (sp : Spool)
    (count : Nat) (part : List Json) (r : List Bool × Spool) : Prop where
  count_le : count ≤ items.length
  oks : r.1 = List.replicate count true ++ List.replicate (items.length - count) false
  counted : r.2.items = sp.items + count
  holding : Holding id limit
    (frames ++ recordsFrames env id frames.length ((items.take count).map (chunk id)) ++ part) r.2
  ended : count = items.length ∧ part = [] ∧ r.2.status = sp.status ∨
    Refusal r.2.status ∧ ∃ item seq, items[count]? = some item ∧
      part <+: recordFrames env id seq (chunk id item) ∧
      part ≠ recordFrames env id seq (chunk id item)

theorem Refusal.not_ok {status : Status} (h : Refusal status) : status.ok = false := by
  rcases h with rfl | rfl <;> decide

/-- After a refusal nothing is added. -/
theorem addAll_refused {env : Env} {items : List Json} (h : sp.status.ok = false) :
    addAll env sp items = (List.replicate items.length false, sp) := by
  induction items with
  | nil => rfl
  | cons item items ih =>
    have hadd : sp.add env item = (false, sp) := by rw [add, if_pos h]
    simp only [addAll, hadd, ih, List.length_cons, List.replicate_succ]

theorem Holding.counted (h : Holding id limit frames sp) {n : Nat} (hn : n ≤ frames.length) :
    Holding id limit frames { sp with items := n } :=
  ⟨h.1, h.2, h.3, h.4, h.5, h.6, h.7, hn, h.9, h.10, h.11⟩

/-- Items are added in their order until one is refused. -/
theorem addAll_added (env : Env) (items : List Json) :
    ∀ {frames : List Json} {sp : Spool}, Holding id limit frames sp → sp.status.ok = true →
      ∃ count part, Added env id limit frames items sp count part (addAll env sp items) := by
  induction items with
  | nil =>
    intro frames sp h _
    refine ⟨0, [], le_rfl, rfl, rfl, ?_, .inl ⟨rfl, rfl, rfl⟩⟩
    simpa [recordsFrames, addAll] using h
  | cons item items ih =>
    intro frames sp h hst
    have hadds := writeRecord_adds env h (chunk sp.id item) rfl
    rw [h.id_eq] at hadds
    simp only [addAll, add]
    rw [if_neg (by simp [hst]), h.id_eq]
    generalize sp.writeRecord env (chunk id item) = r at hadds ⊢
    obtain ⟨ok, sp'⟩ := r
    obtain ⟨hitems, ⟨hok, hh, hst'⟩ | ⟨hok, href, part, hpart, hne, hh⟩⟩ := hadds
    · dsimp only at hok hitems hst' hh
      subst hok
      have hle : sp'.items + 1 ≤ (frames ++ recordFrames env id frames.length (chunk id item)).length := by
        have := List.length_pos_iff.2 (recordFrames_ne_nil env id frames.length (chunk id item))
        have := h.items
        rw [List.length_append]
        omega
      obtain ⟨count, part, hadded⟩ := ih (hh.counted hle) (by rw [← hst]; exact congrArg _ hst')
      refine ⟨count + 1, part, ?_⟩
      exact {
        count_le := Nat.succ_le_succ hadded.count_le
        oks := by
          dsimp only
          rw [hadded.oks, List.length_cons, Nat.add_sub_add_right, List.replicate_succ,
            List.cons_append]
        counted := by
          have := hadded.counted
          dsimp only at this ⊢
          omega
        holding := by
          have := hadded.holding
          rw [List.length_append] at this
          simpa only [List.take_succ_cons, List.map_cons, recordsFrames, List.append_assoc] using this
        ended := by
          rcases hadded.ended with ⟨hcount, hpart, hstatus⟩ | ⟨href, item', seq, hitem', hpart⟩
          · exact .inl ⟨by rw [hcount, List.length_cons], hpart, hstatus.trans hst'⟩
          · exact .inr ⟨href, item', seq, by rw [List.getElem?_cons_succ, hitem'], hpart⟩ }
    · dsimp only at hok hitems href hh
      subst hok
      rw [addAll_refused href.not_ok]
      refine ⟨0, part, Nat.zero_le _, by simp [List.replicate_succ], by simp [hitems], ?_, .inr ⟨href,
        item, frames.length, rfl, hpart, hne⟩⟩
      simpa [recordsFrames] using hh

/-! ## Terminal frames -/

/-- The file of a response that ended: these frames, one a line, numbered from zero, each line
short and all of them within the limit. -/
structure Ended (limit : Nat) (frames : List Json) (file : Bytes) : Prop where
  file_eq : file = linesOf (numbered 0 frames)
  lines_eq : lines file = (numbered 0 frames).map Json.dump
  short : ∀ line ∈ lines file, line.length + 1 ≤ Limits.frameBytes
  seq : ∀ i (h : i < (numbered 0 frames).length),
    ((numbered 0 frames)[i]).get? "seq" = some (.uint i)
  length_le : file.length ≤ limit

/-- The file has one line for each frame. -/
theorem lines_linesOf (frames : List Json) : lines (linesOf frames) = frames.map Json.dump := by
  refine lines_flatten fun l hl b hb => ?_
  obtain ⟨frame, -, rfl⟩ := List.mem_map.1 hl
  exact Json.ne_newline_of_mem_dump hb

/-- Frames are numbered from the first on. -/
theorem getElem_numbered {frames : List Json} (hobj : ∀ f ∈ frames, f.isObject = true) :
    ∀ (seq i : Nat) (h : i < (numbered seq frames).length),
      ((numbered seq frames)[i]).get? "seq" = some (.uint (seq + i)) := by
  induction frames with
  | nil => intro seq i h; simp [numbered] at h
  | cons frame frames ih =>
    intro seq i h
    cases i with
    | zero =>
      obtain ⟨m, rfl⟩ := Json.isObject_iff.1 (hobj frame (by simp))
      simp [numbered]
    | succ i =>
      have := ih (fun f hf => hobj f (by simp [hf])) (seq + 1) i (by simpa [numbered] using h)
      rw [show seq + (i + 1) = seq + 1 + i by omega]
      simpa [numbered] using this

/-- A line is never empty. -/
theorem length_linesOf_numbered (seq : Nat) (frames : List Json) :
    frames.length ≤ (linesOf (numbered seq frames)).length := by
  induction frames generalizing seq with
  | nil => simp
  | cons frame frames ih =>
    have := ih (seq + 1)
    simp only [numbered, linesOf, List.map_cons, List.flatten_cons, List.length_append,
      List.length_cons, List.length_nil] at this ⊢
    omega

/-- There are fewer frames than octets. -/
theorem Holding.length_lt (h : Holding id limit frames sp) (hlimit : limit < 2 ^ 64) :
    frames.length < 2 ^ 64 := by
  have := length_linesOf_numbered 0 frames
  have hb := h.bytes
  rw [h.file] at hb
  rcases h.room with rfl | hroom
  · simp
  · omega

/-- A file that was not refused a record has ended where it is. -/
theorem Holding.ended (h : Holding id limit frames sp) : Ended limit frames sp.file where
  file_eq := h.file
  lines_eq := by rw [h.file, lines_linesOf]
  short := by
    intro line hl
    rw [h.file, lines_linesOf] at hl
    obtain ⟨f, hf, rfl⟩ := List.mem_map.1 hl
    exact h.short f hf
  seq := fun i hi => by simpa using getElem_numbered h.objects 0 i hi
  length_le := by
    have := h.bytes
    rcases h.room with rfl | hroom
    · rw [h.file]
      simp [numbered, linesOf]
    · omega

/-- The frame a spool finishes with. -/
def terminal (sp : Spool) (status : Status) : Json :=
  let st := if sp.status.ok then status else sp.status
  if st.ok then complete sp.id sp.seq sp.items else error sp.id st

/-- Where nothing was refused the terminal frame is the one that was asked for. -/
theorem terminal_of_ok (h : sp.status = {}) (status : Status) : sp.terminal status =
    if status.ok then complete sp.id sp.seq sp.items else error sp.id status := by
  have hok : Status.ok {} = true := rfl
  simp only [terminal, h, hok, if_true]

/-- What was refused shows in the terminal frame. -/
theorem terminal_of_refusal (h : Refusal sp.status) (status : Status) :
    sp.terminal status = error sp.id sp.status := by
  simp [terminal, h.not_ok]

/-- `Finish` writes its frame after whatever the file holds. -/
theorem finish_ended (h : Holding id limit frames sp) (hlimit : 1024 ≤ limit) (status : Status)
    (hstorage : sp.status.code ≠ utf8 "storage_error") (hobj : (sp.terminal status).isObject = true)
    (hfits : ((sp.terminal status).set "seq" (.uint frames.length)).dump.length + 1 ≤ 1024) :
    (sp.finish status).1 = {} ∧
      Ended limit (frames ++ [sp.terminal status]) (sp.finish status).2.file := by
  have hline : (sp.line (sp.terminal status)).length ≤ 1024 := by
    rw [line, List.length_append, List.length_singleton, h.seq]
    exact hfits
  have hwrite := write_terminal h.opened h.disk
    (hline.trans (by decide : 1024 ≤ Limits.frameBytes))
  have hfinish : sp.finish status = ({}, { sp with
      file := sp.file ++ sp.line (sp.terminal status),
      bytes := sp.bytes + (sp.line (sp.terminal status)).length, seq := sp.seq + 1 }) := by
    unfold finish
    rw [if_neg hstorage]
    dsimp only
    rw [← terminal, hwrite]
    simp [fsync, io, h.disk]
  rw [hfinish]
  refine ⟨rfl, ?_⟩
  have hfile : sp.file ++ sp.line (sp.terminal status) =
      linesOf (numbered 0 (frames ++ [sp.terminal status])) := by
    rw [numbered_append, linesOf_append, ← h.file, line_eq, h.seq, Nat.zero_add]
  have hobjects : ∀ f ∈ frames ++ [sp.terminal status], f.isObject = true := by
    intro f hf
    rcases List.mem_append.1 hf with hf | hf
    · exact h.objects f hf
    · rw [List.mem_singleton.1 hf]
      exact hobj
  exact {
    file_eq := hfile
    lines_eq := by
      dsimp only
      rw [hfile, lines_linesOf]
    short := by
      intro line hl
      dsimp only at hl
      rw [hfile, lines_linesOf] at hl
      obtain ⟨f, hf, rfl⟩ := List.mem_map.1 hl
      rcases mem_numbered_append hf with hf | rfl
      · exact h.short f hf
      · exact hfits.trans (by decide)
    seq := fun i hi => by simpa using getElem_numbered hobjects 0 i hi
    length_le := by
      have := h.bytes
      dsimp only
      rw [List.length_append]
      rcases h.room with rfl | hroom
      · rw [h.file]
        simp only [numbered, linesOf, List.map_nil, List.flatten_nil, List.length_nil]
        omega
      · omega }

/-- A refusal always fits into the room that is kept for it. -/
theorem length_error_of_refusal {status : Status} (hid : isIdText id = true)
    (h : Refusal status) {seq : Nat} (hseq : seq < 2 ^ 64) :
    ((error id status).set "seq" (.uint seq)).dump.length + 1 ≤ 1024 := by
  have hform : (error id status).set "seq" (.uint seq) =
      .obj [("error", Json.object [("code", .str status.code), ("message", .str status.message)]),
        ("id", .str id), ("seq", .uint seq), ("type", .str "error")] := rfl
  have hlen : id.length ≤ 96 := by
    simp only [isIdText, Bool.and_eq_true, decide_eq_true_eq] at hid
    exact hid.1.2
  have hquote := Json.length_quote_le (valid_of_isIdText hid)
  have hnum := length_dump_uint hseq
  have hstatus : (Json.dump (Json.object [("code", .str status.code),
      ("message", .str status.message)])).length ≤ 100 := by
    rcases h with rfl | rfl <;> decide
  have hkeys : (Json.quote "error").length = 7 ∧ (Json.quote "id").length = 4 ∧
      (Json.quote "seq").length = 5 ∧ (Json.quote "type").length = 6 ∧
      (Json.dump (.str "error")).length = 7 := by decide
  have hdump : (Json.dump (.str id)) = Json.quote id := rfl
  rw [hform, Json.length_dump_obj (by simp)]
  simp only [List.map_cons, List.map_nil, List.sum_cons, List.sum_nil, Json.memberLen, hkeys, hdump]
  omega

/-- A refusal is no failure of the storage. -/
theorem Refusal.ne_storage {status : Status} (h : Refusal status) :
    status.code ≠ utf8 "storage_error" := by
  rcases h with rfl | rfl <;> decide

end

/-! ## Responses -/

section

variable (env : Env) {id : Bytes} {limit : Nat}

/-- A dump: its file ends with one terminal frame, after the records of the items that were
added and perhaps a part of one that was refused. -/
theorem finish_bounded (hid : isIdText id = true) (hlow : 1024 ≤ limit) (hhigh : limit < 2 ^ 64)
    (items : List Json) {status : Status}
    (hstatus : status.ok = false → ∀ seq, seq < 2 ^ 64 →
      ((error id status).set "seq" (.uint seq)).dump.length + 1 ≤ 1024) :
    ∃ count part last, Added env id limit [] items (create id limit) count part
        (addAll env (create id limit) items) ∧
      ((addAll env (create id limit) items).2.finish status).1 = {} ∧
      Ended limit (recordsFrames env id 0 ((items.take count).map (chunk id)) ++ part ++ [last])
        ((addAll env (create id limit) items).2.finish status).2.file ∧
      if status.ok = true ∧ ∀ ok ∈ (addAll env (create id limit) items).1, ok = true then
        last = complete id (recordsFrames env id 0 ((items.take count).map (chunk id)) ++ part).length
          items.length
      else ∃ st, st.ok = false ∧ last = error id st := by
  obtain ⟨count, part, hadded⟩ := addAll_added env items (holding_create id limit) rfl
  generalize addAll env (create id limit) items = r at hadded ⊢
  obtain ⟨oks, sp⟩ := r
  have hh := hadded.holding
  rw [List.nil_append, List.length_nil] at hh
  have hlt := hh.length_lt hhigh
  have hitems : sp.items < 2 ^ 64 := hh.items.trans_lt hlt
  refine ⟨count, part, sp.terminal status, hadded, ?_⟩
  dsimp only
  rcases hadded.ended with ⟨hcount, hpart, hst⟩ | ⟨href, item, seq, hitem, -, -⟩
  · -- Nothing was refused: the frame is the one `Finish` was asked for.
    have hst' : sp.status = {} := hst
    have hall : ∀ ok ∈ oks, ok = true := by
      have := hadded.oks
      dsimp only at this
      rw [this, hcount, Nat.sub_self, List.replicate_zero, List.append_nil]
      exact fun ok hok => (List.mem_replicate.1 hok).2
    have hcounted : sp.items = items.length := by
      have := hadded.counted
      dsimp only at this
      rw [this, ← hcount]
      exact Nat.zero_add _
    have hterm : sp.terminal status = if status.ok then
        complete id (recordsFrames env id 0 ((items.take count).map (chunk id)) ++ part).length
          items.length else error id status := by
      rw [terminal_of_ok hst', hh.id_eq, hh.seq, hcounted]
    cases hok : status.ok with
    | true =>
      rw [hok, if_pos rfl] at hterm
      have hfin := finish_ended hh hlow status (by rw [hst']; decide)
        (by rw [hterm]; rfl)
        (by
          rw [hterm]
          have := length_complete_le hid hlt (hcounted ▸ hitems) hlt
          omega)
      refine ⟨hfin.1, hfin.2, ?_⟩
      rw [if_pos ⟨rfl, hall⟩]
      exact hterm
    | false =>
      rw [hok, if_neg (by decide)] at hterm
      have hfin := finish_ended hh hlow status (by rw [hst']; decide)
        (by rw [hterm]; rfl) (by rw [hterm]; exact hstatus hok _ hlt)
      refine ⟨hfin.1, hfin.2, ?_⟩
      rw [if_neg (fun h => by cases h.1)]
      exact ⟨status, hok, hterm⟩
  · -- An item was refused: the frame is the error noted with it.
    have hterm : sp.terminal status = error id sp.status := by
      rw [terminal_of_refusal href, hh.id_eq]
    have hfin := finish_ended hh hlow status href.ne_storage (by rw [hterm]; rfl)
      (by rw [hterm]; exact length_error_of_refusal hid href hlt)
    refine ⟨hfin.1, hfin.2, ?_⟩
    rw [if_neg]
    · exact ⟨sp.status, href.not_ok, hterm⟩
    · intro hall
      have hlt' : count < items.length := (List.getElem?_eq_some_iff.1 hitem).1
      have hmem : false ∈ oks := by
        have := hadded.oks
        dsimp only at this
        rw [this]
        refine List.mem_append_right _ (List.mem_replicate.2 ⟨by omega, rfl⟩)
      cases hall.2 false hmem

/-- A response behind what the file holds: the file ends with it, or with a part of it and the
error with which the rest is refused. -/
theorem Holding.single (hid : isIdText id = true) (hlow : 1024 ≤ limit) (hhigh : limit < 2 ^ 64)
    {frames : List Json} {sp : Spool} (h : Holding id limit frames sp) {frame : Json}
    (hobj : frame.isObject = true) :
    (sp.single env frame).1 = {} ∧
      ((sp.writeRecord env frame).1 = true ∧
          Ended limit (frames ++ recordFrames env id frames.length frame)
            (sp.single env frame).2.file ∨
        (sp.writeRecord env frame).1 = false ∧
          ∃ part, part <+: recordFrames env id frames.length frame ∧
            part ≠ recordFrames env id frames.length frame ∧
            Refusal (sp.writeRecord env frame).2.status ∧
            Ended limit (frames ++ part ++ [error id (sp.writeRecord env frame).2.status])
              (sp.single env frame).2.file) := by
  have hadds := writeRecord_adds env h frame hobj
  unfold Spool.single
  generalize sp.writeRecord env frame = r at hadds ⊢
  obtain ⟨ok, sp'⟩ := r
  obtain ⟨-, ⟨hok, hh, -⟩ | ⟨hok, href, part, hpart, hne, hh⟩⟩ := hadds
  · dsimp only at hok hh
    subst hok
    have hdisk := hh.disk
    simp only [fsync, io, hdisk]
    exact ⟨trivial, .inl ⟨trivial, hh.ended⟩⟩
  · dsimp only at hok href hh
    subst hok
    have hterm : sp'.terminal sp'.status = error id sp'.status := by
      rw [terminal_of_refusal href, hh.id_eq]
    have hfin := finish_ended hh hlow sp'.status href.ne_storage (by rw [hterm]; rfl)
      (by rw [hterm]; exact length_error_of_refusal hid href (hh.length_lt hhigh))
    rw [hterm] at hfin
    exact ⟨hfin.1, .inr ⟨rfl, part, hpart, hne, href, hfin.2⟩⟩

/-- The same for a response that is the only one. -/
theorem single_ended (hid : isIdText id = true) (hlow : 1024 ≤ limit) (hhigh : limit < 2 ^ 64)
    {frame : Json} (hobj : frame.isObject = true) :
    ((create id limit).single env frame).1 = {} ∧
      (((create id limit).writeRecord env frame).1 = true ∧
          Ended limit (recordFrames env id 0 frame) ((create id limit).single env frame).2.file ∨
        ((create id limit).writeRecord env frame).1 = false ∧
          ∃ part, part <+: recordFrames env id 0 frame ∧ part ≠ recordFrames env id 0 frame ∧
            Refusal ((create id limit).writeRecord env frame).2.status ∧
            Ended limit (part ++ [error id ((create id limit).writeRecord env frame).2.status])
              ((create id limit).single env frame).2.file) := by
  simpa using (holding_create id limit).single env hid hlow hhigh hobj

/-- The same, whatever the spool refuses. -/
theorem single_bounded (hid : isIdText id = true) (hlow : 1024 ≤ limit) (hhigh : limit < 2 ^ 64)
    {frame : Json} (hobj : frame.isObject = true) :
    ((create id limit).single env frame).1 = {} ∧
      (Ended limit (recordFrames env id 0 frame) ((create id limit).single env frame).2.file ∨
        ∃ part st, part <+: recordFrames env id 0 frame ∧ part ≠ recordFrames env id 0 frame ∧
          Refusal st ∧
          Ended limit (part ++ [error id st]) ((create id limit).single env frame).2.file) := by
  obtain ⟨hok, ⟨-, hended⟩ | ⟨-, part, hpart, hne, href, hended⟩⟩ :=
    single_ended env hid hlow hhigh hobj
  · exact ⟨hok, .inl hended⟩
  · exact ⟨hok, .inr ⟨part, _, hpart, hne, href, hended⟩⟩

/-- **Response files are well formed and bounded.** Whatever items are added and whatever is
refused, `Finish` succeeds and the file is numbered short lines within the limit that end with one
terminal frame: `complete`, with the number of items, exactly where the status is success and
nothing was refused. `Single` succeeds too, and its file is the response or a part of it and one
error frame. -/
theorem response_bounded (hid : isIdText id = true) (hlow : 1024 ≤ limit) (hhigh : limit < 2 ^ 64) :
    (∀ (items : List Json) (status : Status),
      (status.ok = false → ∀ seq, seq < 2 ^ 64 →
        ((error id status).set "seq" (.uint seq)).dump.length + 1 ≤ 1024) →
      ∃ count part last, Added env id limit [] items (create id limit) count part
          (addAll env (create id limit) items) ∧
        ((addAll env (create id limit) items).2.finish status).1 = {} ∧
        Ended limit (recordsFrames env id 0 ((items.take count).map (chunk id)) ++ part ++ [last])
          ((addAll env (create id limit) items).2.finish status).2.file ∧
        if status.ok = true ∧ ∀ ok ∈ (addAll env (create id limit) items).1, ok = true then
          last = complete id
            (recordsFrames env id 0 ((items.take count).map (chunk id)) ++ part).length items.length
        else ∃ st, st.ok = false ∧ last = error id st) ∧
    (∀ frame, (∃ value, frame = result id value) ∨ (∃ st, frame = error id st) →
      ((create id limit).single env frame).1 = {} ∧
      (Ended limit (recordFrames env id 0 frame) ((create id limit).single env frame).2.file ∨
        ∃ part st, part <+: recordFrames env id 0 frame ∧ part ≠ recordFrames env id 0 frame ∧
          Refusal st ∧
          Ended limit (part ++ [error id st]) ((create id limit).single env frame).2.file)) := by
  refine ⟨fun items status hstatus => finish_bounded env hid hlow hhigh items hstatus, ?_⟩
  intro frame hframe
  refine single_bounded env hid hlow hhigh ?_
  obtain ⟨value, rfl⟩ | ⟨st, rfl⟩ := hframe
  · rfl
  · rfl

/-- The smallest limit leaves room for the terminal frame only. -/
theorem response_bounded_smallest :
    ((addAll Env.plain (create "r1" 1024) [.null, .uint 7]).2.finish {}).1 = {} ∧
      ((create "r1" 1024).single Env.plain (result "r1" .null)).1 = {} := by
  have h := @response_bounded Env.plain "r1" 1024 (by decide) (le_refl _)
    (by decide)
  obtain ⟨count, part, last, -, hok, -⟩ := h.1 [.null, .uint 7] {} (fun h => by cases h)
  exact ⟨hok, (h.2 _ (.inl ⟨.null, rfl⟩)).1⟩

end

end VppJson.Spool
