import VppJsonGateway.SpoolRoom

/-!
# What a spool writes, an assembler reads

The lines a `Spool` writes for a dump or for a single response, parsed and fed to a fresh
`Assembler`, give the logical frames back.
-/

namespace VppJson

open Lib

/-! ## Round trip -/

section RoundTrip

variable {env : Env} {id : Bytes} {limit : Nat}

open Assembler Spool

/-- A record takes one line at least. -/
theorem one_le_lineCount (frame : Json) : 1 ≤ lineCount frame := by
  unfold lineCount
  split
  · exact le_rfl
  · exact List.length_pos_iff.2 (blocks_ne_nil (List.length_pos_iff.1 (Json.length_dump_pos frame)))

/-- There are at least as many lines as records. -/
theorem length_le_sum_lineCount (frames : List Json) :
    frames.length ≤ (frames.map lineCount).sum := by
  induction frames with
  | nil => exact le_rfl
  | cons frame frames ih =>
    have := one_le_lineCount frame
    rw [List.length_cons, List.map_cons, List.sum_cons]
    omega

/-- The frame that ends a dump, as it is written. -/
def completeFrame (id : Bytes) (seq items : Nat) : Json :=
  (complete id seq items).set "seq" (.uint seq)

/-- The frame that ends a dump is good. -/
theorem good_completeFrame (hid : Utf8.Valid id) {seq items : Nat} (hseq : seq < 2 ^ 64)
    (hitems : items < 2 ^ 64) : (completeFrame id seq items).Good env.strtod := by
  refine Json.Good.set (Json.good_object ?_) (by decide) hseq
  simp only [List.mem_cons, List.not_mem_nil, or_false, forall_eq_or_imp, forall_eq, Json.Good]
  exact ⟨⟨by decide, hid⟩, ⟨by decide, by decide⟩, ⟨by decide, hseq⟩, by decide, hitems⟩

/-- The records of a file and nothing else: read and accepted. -/
theorem read_records (hid : Utf8.Valid id) {frames : List Json}
    (hframes : ∀ frame ∈ frames, Logical env id frame ∧
      frame.dump.length ≤ Limits.recordBytes)
    (hcount : (recordsFrames env id 0 frames).length < 2 ^ 64) :
    (∀ f ∈ numbered 0 (recordsFrames env id 0 frames), f.Good env.strtod) ∧
      ∃ b : Assembler, b.Idle ∧
        Accepts env {} ((numbered 0 (recordsFrames env id 0 frames)).map Json.norm)
          (reports 0 frames) b := by
  refine ⟨?_, accepts_records ⟨rfl, rfl⟩ hframes⟩
  refine good_numbered (by omega) (good_recordsFrames hid (by omega) fun f hf => ?_)
  exact ⟨(hframes f hf).1.good, (hframes f hf).2⟩

/-- The spool after a run of `Add` calls that all succeeded. -/
theorem added {items : List Json} (hlimit : limit < 2 ^ 64)
    (hadd : ∀ ok ∈ (addAll env (create id limit) items).1, ok = true) :
    let sp := (addAll env (create id limit) items).2
    sp.id = id ∧ sp.status = {} ∧ sp.opened = true ∧ sp.disk = [] ∧ sp.items = items.length ∧
      sp.file = linesOf (numbered 0 (recordsFrames env id 0 (items.map (chunk id)))) ∧
      sp.seq = (recordsFrames env id 0 (items.map (chunk id))).length ∧ sp.seq < 2 ^ 64 ∧
      ∀ item ∈ items, (chunk id item).dump.length ≤ Limits.recordBytes := by
  obtain ⟨hw, hfit⟩ := wrote_of_addAll hadd
  have hbytes := hw.bytes (Nat.zero_le 0)
  have hwithin := hw.limit (Nat.zero_le limit)
  have hlim : (create id limit).limit = limit := rfl
  refine ⟨hw.id, hw.status, hw.opened, hw.disk rfl, hw.items.trans (Nat.zero_add _), hw.file,
    hw.seq.trans (Nat.zero_add _), ?_, hfit⟩
  omega

/-- Frames of a request as they are read from a file: numbered from zero. -/
def Numbers (id : Bytes) (frames : List Json) : Prop :=
  ∃ fs : List Json, (∀ f ∈ fs, Names id f) ∧ fs.length ≤ 2 ^ 64 ∧
    frames = (numbered 0 fs).map Json.norm

/-- A dump that no `Add` refused. -/
theorem accept_dump (hid : isIdText id = true) (hlimit : limit < 2 ^ 64) {items : List Json}
    (hitems : ∀ item ∈ items, item.Good env.strtod ∧ item.depth ≤ 30)
    (hadd : ∀ ok ∈ (addAll env (create id limit) items).1, ok = true) :
    ∃ frames, ((addAll env (create id limit) items).2.finish {}).1 = {} ∧
      readFrames env ((addAll env (create id limit) items).2.finish {}).2.file = some frames ∧
      Numbers id frames ∧
      acceptAll env {} frames = some (reports 0 (items.map (chunk id)) ++
        [some (completeFrame id (frames.length - 1) items.length)]) := by
  obtain ⟨hspid, hstatus, hopened, hdisk, hspitems, hspfile, hseq, hbound, hfit⟩ :=
    added hlimit hadd
  set sp := (addAll env (create id limit) items).2
  set records := recordsFrames env id 0 (items.map (chunk id)) with hrecords
  have hvalid := valid_of_isIdText hid
  have hcount : items.length ≤ sp.seq := by
    have := length_le_sum_lineCount (items.map (chunk id))
    rw [hseq, hrecords, length_recordsFrames]
    simpa using this
  obtain ⟨hfin, hfile⟩ := finish_complete (hspid.symm ▸ hid) hstatus hopened hdisk hbound
    (by omega)
  have hframes : ∀ frame ∈ items.map (chunk id),
      Logical env id frame ∧ frame.dump.length ≤ Limits.recordBytes := by
    intro frame hframe
    obtain ⟨item, hitem, rfl⟩ := List.mem_map.1 hframe
    exact ⟨logical_chunk hvalid (hitems item hitem).1 (hitems item hitem).2, hfit item hitem⟩
  obtain ⟨hgood, b, hb, haccepts⟩ := read_records hvalid hframes (hseq ▸ hbound)
  have htext : (sp.finish {}).2.file =
      linesOf (numbered 0 records ++ [completeFrame id sp.seq items.length]) := by
    rw [hfile, hspid, hspitems, hspfile, linesOf_append]
    rfl
  refine ⟨(numbered 0 records ++ [completeFrame id sp.seq items.length]).map Json.norm,
    hfin, ?_, ?_, ?_⟩
  · rw [htext]
    refine readFrames_linesOf fun f hf => ?_
    rcases List.mem_append.1 hf with hf | hf
    · exact hgood f hf
    · rw [List.mem_singleton] at hf
      exact hf ▸ good_completeFrame hvalid hbound (by omega)
  · refine ⟨records ++ [complete id sp.seq items.length], fun f hf => ?_, ?_, ?_⟩
    · rcases List.mem_append.1 hf with hf | hf
      · refine names_recordsFrames (fun frame hframe => ?_) f hf
        obtain ⟨item, -, rfl⟩ := List.mem_map.1 hframe
        exact ⟨rfl, rfl⟩
      · exact List.mem_singleton.1 hf ▸ ⟨rfl, rfl⟩
    · rw [List.length_append, List.length_singleton]
      omega
    · rw [numbered_append, Nat.zero_add, ← hseq]
      rfl
  · have hlen : ((numbered 0 records ++
        [completeFrame id sp.seq items.length]).map Json.norm).length - 1 = sp.seq := by
      rw [List.length_map, List.length_append, length_numbered, List.length_singleton, hseq]
      rfl
    have hend : Accepts env b ([completeFrame id sp.seq items.length].map Json.norm)
        [some (completeFrame id sp.seq items.length)] { b with data := [], total := 0 } :=
      .cons (accept_plain env hb rfl rfl (by decide)) (.nil _)
    rw [hlen, List.map_append]
    exact (haccepts.append hend).acceptAll_eq

/-- A single response whose record was written. -/
theorem accept_single (hid : isIdText id = true) (hlimit : limit < 2 ^ 64) {frame : Json}
    (hframe : Logical env id frame) (hnames : Names id frame)
    (hwrite : ((create id limit).writeRecord env frame).1 = true) :
    ∃ frames, ((create id limit).single env frame).1 = {} ∧
      readFrames env ((create id limit).single env frame).2.file = some frames ∧
      Numbers id frames ∧
      acceptAll env {} frames = some (reports 0 [frame]) := by
  cases hrec : (create id limit).writeRecord env frame with
  | mk ok sp =>
    rw [hrec] at hwrite
    cases hwrite
    obtain ⟨hw, hfit⟩ := wrote_of_writeRecord hrec
    have hbytes := hw.bytes (Nat.zero_le 0)
    have hwithin := hw.limit (Nat.zero_le limit)
    have hlim : (create id limit).limit = limit := rfl
    have hsingle : (create id limit).single env frame = ({}, sp) := by
      rw [single, hrec]
      simp only [fsync, io, hw.disk rfl]
    have hrecords : recordsFrames env id 0 [frame] = recordFrames env id 0 frame := by
      simp [recordsFrames]
    have hseq : sp.seq = (recordFrames env id 0 frame).length := hw.seq.trans (Nat.zero_add _)
    have hframes : ∀ f ∈ [frame], Logical env id f ∧ f.dump.length ≤ Limits.recordBytes := by
      simpa using ⟨hframe, hfit⟩
    obtain ⟨hgood, b, -, haccepts⟩ := read_records (valid_of_isIdText hid) hframes
      (by rw [hrecords]; omega)
    rw [hsingle]
    rw [hrecords] at hgood haccepts
    refine ⟨_, rfl, ?_, ⟨_, names_recordFrames hnames, by omega, rfl⟩, haccepts.acceptAll_eq⟩
    rw [hw.file]
    exact readFrames_linesOf hgood

/-- **Round trip of responses.** The frames `Add`, `Add`, …, `Finish` wrote, fed in order to a
fresh assembler, are all accepted; each item's chunk is ready with the last of its lines and
not before, and the last frame counts the items and the lines before it. The frames of a
`Single` response give that response. -/
theorem accept_spooled (hid : isIdText id = true) (hlimit : limit < 2 ^ 64) :
    (∀ items : List Json, (∀ item ∈ items, item.Good env.strtod ∧ item.depth ≤ 30) →
      (∀ ok ∈ (addAll env (create id limit) items).1, ok = true) →
      ∃ frames, ((addAll env (create id limit) items).2.finish {}).1 = {} ∧
        readFrames env ((addAll env (create id limit) items).2.finish {}).2.file = some frames ∧
        acceptAll env {} frames = some (reports 0 (items.map (chunk id)) ++
          [some (completeFrame id (frames.length - 1) items.length)])) ∧
    ∀ frame : Json,
      (∃ value, frame = result id value ∧ value.Good env.strtod ∧ value.depth ≤ 30) ∨
        (∃ status, frame = error id status ∧ Utf8.Valid status.code ∧
          Utf8.Valid status.message) →
      ((create id limit).writeRecord env frame).1 = true →
      ∃ frames, ((create id limit).single env frame).1 = {} ∧
        readFrames env ((create id limit).single env frame).2.file = some frames ∧
        acceptAll env {} frames = some (reports 0 [frame]) := by
  have hvalid := valid_of_isIdText hid
  refine ⟨fun items hitems hadd => ?_, ?_⟩
  · obtain ⟨frames, hfin, hread, -, haccept⟩ := accept_dump hid hlimit hitems hadd
    exact ⟨frames, hfin, hread, haccept⟩
  · rintro frame (⟨value, rfl, hgood, hdepth⟩ | ⟨status, rfl, hcode, hmessage⟩) hwrite
    · obtain ⟨frames, hfin, hread, -, haccept⟩ := accept_single hid hlimit
        (logical_result hvalid hgood hdepth) (names_result id value) hwrite
      exact ⟨frames, hfin, hread, haccept⟩
    · obtain ⟨frames, hfin, hread, -, haccept⟩ := accept_single hid hlimit
        (logical_error hvalid hcode hmessage) (names_error id status) hwrite
      exact ⟨frames, hfin, hread, haccept⟩

/-- An item of any length. -/
def longItem (n : Nat) : Json := .str (List.replicate n 97)

/-- An item that is a text of `n` letters takes 39 octets more in its record. -/
theorem length_dump_longItem (n : Nat) : (chunk "r1" (longItem n)).dump.length = n + 39 := by
  have hform : chunk "r1" (longItem n) =
      .obj [("id", .str "r1"), ("items", .arr [longItem n]), ("type", .str "chunk")] := rfl
  have hitem : (longItem n).dump.length = n + 2 := by
    refine (Json.length_quote_plain fun b hb => ?_).trans (congrArg (· + 2) List.length_replicate)
    rw [List.eq_of_mem_replicate hb]
    decide
  have hitems : (Json.dump (.arr [longItem n])).length = (longItem n).dump.length + 2 := by
    simp [Json.dump, Json.dumpItems]
  have hkeys : (Json.quote "id").length = 4 ∧ (Json.quote "items").length = 7 ∧
      (Json.quote "type").length = 6 ∧ (Json.dump (.str "r1")).length = 4 ∧
      (Json.dump (.str "chunk")).length = 7 := by decide
  rw [hform, Json.length_dump_obj (by simp)]
  simp only [List.map_cons, List.map_nil, List.sum_cons, List.sum_nil, Json.memberLen, hkeys, hitems,
    hitem]
  omega

/-- There is room for a short item and a long one. -/
theorem added_longItem {n : Nat} (hn : n ≤ 16000000) :
    ∀ ok ∈ (addAll Env.plain (create "r1") [.uint 7, longItem n]).1, ok = true := by
  have hroom : ((create "r1").add Env.plain (.uint 7)).1 = true ∧
      ((create "r1").add Env.plain (.uint 7)).2.status.ok = true ∧
      ((create "r1").add Env.plain (.uint 7)).2.opened = true ∧
      ((create "r1").add Env.plain (.uint 7)).2.disk = [] ∧
      ((create "r1").add Env.plain (.uint 7)).2.id = utf8 "r1" ∧
      ((create "r1").add Env.plain (.uint 7)).2.seq = 1 ∧
      ((create "r1").add Env.plain (.uint 7)).2.bytes ≤ 100 ∧
      ((create "r1").add Env.plain (.uint 7)).2.limit = Limits.spoolBytes := by decide +kernel
  simp only [addAll]
  generalize (create "r1").add Env.plain (.uint 7) = r at hroom
  obtain ⟨ok, sp⟩ := r
  obtain ⟨rfl, hstatus, hopened, hdisk, hid, hseq, hbytes, hlimit⟩ := hroom
  dsimp only at hstatus hopened hdisk hid hseq hbytes hlimit
  have hlong : (sp.add Env.plain (longItem n)).1 = true := by
    refine add_room ?_ hstatus hopened hdisk ?_ ?_ ?_
    · rw [hid]
      decide
    · rw [hseq]
      decide
    · rw [hid, length_dump_longItem]
      simp only [Limits.recordBytes]
      omega
    · rw [hid, length_dump_longItem, hlimit]
      simp only [block, Limits.spoolBytes]
      omega
  simp only [List.mem_cons, List.not_mem_nil, or_false]
  rintro ok (rfl | rfl)
  · rfl
  · exact hlong

/-- A text of letters is good. -/
theorem good_longItem (n : Nat) (strtod : Bytes → Option Double) :
    (longItem n).Good strtod ∧ (longItem n).depth ≤ 30 :=
  ⟨Utf8.valid_of_ascii fun b hb => by
    rw [List.eq_of_mem_replicate hb]
    decide, Nat.zero_le _⟩

/-- A dump of a short item and one that takes several fragments, and a result, on the default
limit. -/
theorem accept_spooled_two_items :
    Limits.frameBytes < (chunk "r1" (longItem 300000)).dump.length ∧
    (∃ frames, readFrames Env.plain ((addAll Env.plain (create "r1")
        [.uint 7, longItem 300000]).2.finish {}).2.file = some frames ∧
      acceptAll Env.plain {} frames =
        some (reports 0 ([.uint 7, longItem 300000].map (chunk "r1")) ++
          [some (completeFrame "r1" (frames.length - 1) 2)])) ∧
    ∃ frames, readFrames Env.plain ((create "r1").single Env.plain
        (result "r1" (.uint 7))).2.file = some frames ∧
      acceptAll Env.plain {} frames = some (reports 0 [result "r1" (.uint 7)]) := by
  have h := @accept_spooled Env.plain "r1" Limits.spoolBytes (by decide) (by decide)
  have hshort : (Json.uint 7).Good Env.plain.strtod ∧ (Json.uint 7).depth ≤ 30 := by
    simp [Json.Good, Json.depth]
  refine ⟨?_, ?_, ?_⟩
  · rw [length_dump_longItem]
    decide
  · obtain ⟨frames, -, hread, haccept⟩ := h.1 [.uint 7, longItem 300000]
      (List.forall_mem_cons.2 ⟨hshort, List.forall_mem_singleton.2 (good_longItem _ _)⟩)
      (added_longItem (by decide))
    exact ⟨frames, hread, haccept⟩
  · obtain ⟨frames, -, hread, haccept⟩ := h.2 (result "r1" (.uint 7))
      (.inl ⟨_, rfl, by simp [Json.Good], by simp [Json.depth]⟩) (by decide +kernel)
    exact ⟨frames, hread, haccept⟩

end RoundTrip

end VppJson
