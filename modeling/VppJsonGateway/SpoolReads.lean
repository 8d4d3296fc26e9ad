import VppJsonGateway.Assembler
import VppJsonGateway.SpoolWrites

/-!
# What an assembler makes of a spool's frames

The assembler is followed over the fragments of one record, and then over the records of a file and
the frame that ends it.
-/

namespace VppJson

open Lib

/-! ## The assembler over the frames of one record -/

namespace Assembler

/-- The canonical text of some octets is decoded to them. -/
theorem decode_encode (data : Bytes) : decode (Base64.encode data) = some data := by
  have htake : (data ++ List.replicate (Base64.padding data) 0).take
      ((data ++ List.replicate (Base64.padding data) 0).length - Base64.padding data) = data := by
    simp
  unfold decode
  rw [Base64.decodeBlock_encode]
  simp only [Base64.pads_encode, htake, if_true]

/-- Calls of `Accept` that all succeed: the frames, what each call reported ready, and the
assembler before and after. -/
inductive Accepts (env : Env) : Assembler → List Json → List (Option Json) → Assembler → Prop
  | nil (a : Assembler) : Accepts env a [] [] a
  | cons {a b c : Assembler} {frame : Json} {frames : List Json} {ready : Option Json}
      {reports : List (Option Json)} (head : a.accept env frame = ({}, ready, b))
      (tail : Accepts env b frames reports c) :
      Accepts env a (frame :: frames) (ready :: reports) c

/-- Frames that are accepted in turn are accepted together. -/
theorem Accepts.append {env : Env} {a b c : Assembler} {xs ys : List Json}
    {rs ss : List (Option Json)} (h : Accepts env a xs rs b) (h' : Accepts env b ys ss c) :
    Accepts env a (xs ++ ys) (rs ++ ss) c := by
  induction h with
  | nil a => exact h'
  | cons head _ ih => exact .cons head (ih h')

/-- Frames that are accepted are reported as a whole. -/
theorem Accepts.acceptAll_eq {env : Env} {a b : Assembler} {frames : List Json}
    {reports : List (Option Json)} (h : Accepts env a frames reports b) :
    a.acceptAll env frames = some reports := by
  induction h with
  | nil a => rfl
  | cons head _ ih =>
    rw [acceptAll, head]
    simp only [ih]
    rfl

/-- No record is open. -/
def Idle (a : Assembler) : Prop := a.data = [] ∧ a.total = 0

/-- The assembler holds the octets `data` of an open record, or none of them. -/
def Holds (data id digest : Bytes) (total record : Nat) (a : Assembler) : Prop :=
  a.data = data ∧
    (a.total = 0 ∧ data = [] ∨ a = { data, id, digest, total, record } ∧ total ≠ 0)

/-- An idle assembler holds the first nothing of any record. -/
theorem Idle.holds {a : Assembler} (h : a.Idle) (id digest : Bytes) (total record : Nat) :
    a.Holds [] id digest total record := ⟨h.1, .inl ⟨h.2, rfl⟩⟩

/-- One fragment of a record, in its place. -/
theorem acceptFragment_eq (env : Env) (seq : Nat) {a : Assembler} {data id digest piece : Bytes}
    {total record : Nat} (ha : a.Holds data id digest total record) (hne : piece ≠ [])
    (hle : piece.length ≤ Spool.block) (hfit : data.length + piece.length ≤ total)
    (htot : total ≤ Limits.recordBytes) :
    a.acceptFragment env ⟨id, record, data.length, total, seq, digest, Base64.encode piece⟩ =
      if data.length + piece.length ≠ total then
        ({}, none, { data := data ++ piece, id, digest, total, record })
      else
        match logical? env { data := data ++ piece, id, digest, total, record } seq with
        | none => (invalid, none, { data := data ++ piece, id, digest, total, record })
        | some logical => ({}, some logical, { data := [], id, digest, total := 0, record }) := by
  have hpos : 0 < piece.length := List.length_pos_iff.2 hne
  have hlen := Base64.length_encode piece
  have hnil : Base64.encode piece ≠ [] := by
    intro h
    rw [h, List.length_nil] at hlen
    omega
  have hcheck : ¬ (total = 0 ∨ total > Limits.recordBytes ∨ Base64.encode piece = [] ∨
      (Base64.encode piece).length > 64 * 1024 ∨ (Base64.encode piece).length % 4 ≠ 0) := by
    simp only [Spool.block] at hle
    rw [hlen]
    rintro (h | h | h | h | h)
    · omega
    · omega
    · exact hnil h
    · omega
    · omega
  have hopen : (if a.total = 0 then
      { a with total := total, record := record, id := id, digest := digest } else a) =
      ({ data, id, digest, total, record } : Assembler) := by
    obtain ⟨hd, ⟨h0, -⟩ | ⟨rfl, h0⟩⟩ := ha
    · rw [if_pos h0, hd]
    · rw [if_neg h0]
  have hstart : ¬ (a.total = 0 ∧ data.length ≠ 0) := by
    obtain ⟨hd, ⟨h0, rfl⟩ | ⟨rfl, h0⟩⟩ := ha
    · exact fun h => h.2 rfl
    · exact fun h => h0 h.1
  unfold acceptFragment
  simp only
  rw [if_neg hcheck, if_neg hstart, hopen]
  simp only [ne_eq, not_true_eq_false, or_self, if_false, decode_encode]
  have hroom : ¬ (piece = [] ∨ piece.length > total - data.length) := by
    rintro (h | h)
    · exact hne h
    · omega
  refine (if_neg hroom).trans ?_
  have hlength : (data ++ piece).length = data.length + piece.length := List.length_append
  by_cases hfull : data.length + piece.length = total
  · exact (if_neg (not_not.2 (hlength.trans hfull))).trans (if_neg (not_not.2 hfull)).symm
  · exact (if_pos fun h => hfull (hlength.symm.trans h)).trans (if_pos hfull).symm

/-- A fragment as it is read back goes to the part of `Accept` for fragments, with all its
numbers. -/
theorem accept_fragment (env : Env) (a : Assembler) (id digest data : Bytes)
    (record total offset seq : Nat) :
    a.accept env (((Spool.fragment id digest record total offset data).set "seq"
      (.uint seq)).norm) =
      a.acceptFragment env ⟨id, record, offset, total, seq, digest, Base64.encode data⟩ := rfl

/-- What the frames of a response have in common. -/
structure Logical (env : Env) (id : Bytes) (frame : Json) : Prop where
  good : frame.Good env.strtod
  depth : frame.depth ≤ 32
  object : ∃ m, frame = .obj m
  id_eq : frame.norm.get? "id" = some (.str id)
  type : ∃ t, frame.norm.get? "type" = some (.str t) ∧
    (t = utf8 "chunk" ∨ t = utf8 "result" ∨ t = utf8 "error")

/-- A whole record with its digest gives the frame it is the text of. -/
theorem logical?_dump {env : Env} {id : Bytes} {frame : Json}
    (h : Logical env id frame) (total record seq : Nat) :
    logical? env { data := frame.dump, id, digest := env.sha256 frame.dump, total, record } seq =
      some (frame.norm.set "seq" (.uint seq)) := by
  obtain ⟨m, hm⟩ := h.object
  obtain ⟨t, ht, htype⟩ := h.type
  have hnorm : frame.norm = .obj (Json.norm.normMembers m) := by rw [hm, Json.norm]
  have hid := h.id_eq
  unfold logical?
  simp only [ne_eq, not_true_eq_false, if_false, checkNesting_dump h.depth,
    Json.parse_dump h.good]
  rw [if_neg (by decide)]
  rw [hnorm] at ht hid ⊢
  simp only [hid, ht, Option.any_some, Json.str?, Option.some.injEq, decide_true, if_true,
    decide_eq_true_eq]
  rw [if_pos htype]

/-- The fragments of a record: nothing is ready before the last one, and then the frame is. -/
theorem accepts_fragments {env : Env} {id : Bytes} {frame : Json}
    (h : Logical env id frame) (hrec : frame.dump.length ≤ Limits.recordBytes) (record : Nat) :
    ∀ {pieces : List Bytes} {a : Assembler} {data : Bytes} {seq : Nat}, pieces ≠ [] →
      a.Holds data id (env.sha256 frame.dump) frame.dump.length record →
      data ++ pieces.flatten = frame.dump →
      (∀ p ∈ pieces, p ≠ [] ∧ p.length ≤ Spool.block) →
      (∀ p ∈ pieces.dropLast, p.length = Spool.block) →
      ∃ b : Assembler, b.Idle ∧
        Accepts env a
          ((numbered seq (Spool.fragments id (env.sha256 frame.dump) record frame.dump.length
            data.length pieces)).map Json.norm)
          (List.replicate (pieces.length - 1) none ++
            [some (frame.norm.set "seq" (.uint (seq + pieces.length - 1)))]) b := by
  intro pieces
  induction pieces with
  | nil =>
    intro _ _ _ hne
    exact absurd rfl hne
  | cons p ps ih =>
    intro a data seq _ ha hdata hpieces hfull
    obtain ⟨hp, hple⟩ := hpieces p List.mem_cons_self
    have hlen := congrArg List.length hdata
    simp only [List.flatten_cons, List.length_append] at hlen
    have hstep := acceptFragment_eq env seq ha hp hple (by omega) hrec
    rw [Spool.fragments, numbered, List.map_cons]
    cases ps with
    | nil =>
      have hall : data ++ p = frame.dump := by simpa using hdata
      have hend : data.length + p.length = frame.dump.length := by simpa using hlen
      rw [hall, if_neg (not_not.2 hend), logical?_dump h] at hstep
      refine ⟨{ data := [], id, digest := env.sha256 frame.dump, total := 0, record },
        ⟨rfl, rfl⟩, ?_⟩
      exact .cons ((accept_fragment ..).trans hstep) (.nil _)
    | cons q qs =>
      have hq : 0 < q.length :=
        List.length_pos_iff.2 (hpieces q (List.mem_cons_of_mem _ List.mem_cons_self)).1
      have hmore : data.length + p.length ≠ frame.dump.length := by
        simp only [List.flatten_cons, List.length_append] at hlen
        omega
      have hblock : p.length = Spool.block := hfull p (by simp)
      rw [if_pos hmore] at hstep
      have hnext : Holds (data ++ p) id (env.sha256 frame.dump) frame.dump.length record
          { data := data ++ p, id, digest := env.sha256 frame.dump,
            total := frame.dump.length, record } :=
        ⟨rfl, .inr ⟨rfl, by omega⟩⟩
      have hdata' : (data ++ p) ++ (q :: qs).flatten = frame.dump := by
        rw [List.append_assoc, ← hdata, ← List.flatten_cons]
      have hfull' : ∀ r ∈ (q :: qs).dropLast, r.length = Spool.block := by
        intro r hr
        refine hfull r ?_
        rw [List.dropLast_cons_cons]
        exact List.mem_cons_of_mem _ hr
      obtain ⟨b, hb, hrest⟩ := @ih _ _ (seq + 1) (by simp) hnext hdata'
        (fun r hr => hpieces r (List.mem_cons_of_mem _ hr)) hfull'
      refine ⟨b, hb, ?_⟩
      rw [List.length_append, hblock] at hrest
      have hcount : seq + 1 + (q :: qs).length - 1 = seq + (p :: q :: qs).length - 1 := by
        simp only [List.length_cons]
        omega
      rw [hcount] at hrest
      exact .cons ((accept_fragment ..).trans hstep) hrest

/-- A frame that is no fragment is handed on as it is. -/
theorem accept_plain (env : Env) {a : Assembler} (ha : a.Idle) {id : Bytes} {frame : Json}
    {t : Bytes} (hid : frame.get? "id" = some (.str id)) (ht : frame.get? "type" = some (.str t))
    (hne : t ≠ utf8 "fragment") :
    a.accept env frame = ({}, some frame, { a with data := [], total := 0 }) := by
  have hopen : ¬ (a.total ≠ 0 ∧ t ≠ utf8 "error") := fun h => h.1 ha.2
  unfold accept
  simp only [hid, ht, Option.bind_some, Json.str?]
  rw [if_pos hne, if_neg hopen]

/-- The lines a record takes. -/
def lineCount (frame : Json) : Nat :=
  if frame.dump.length + 64 ≤ Limits.frameBytes then 1 else (blocks Spool.block frame.dump).length

/-- A record is as many frames as it takes lines. -/
theorem length_recordFrames (env : Env) (id : Bytes) (seq : Nat) (frame : Json) :
    (Spool.recordFrames env id seq frame).length = lineCount frame := by
  unfold Spool.recordFrames lineCount
  split
  · rfl
  · exact Spool.length_fragments ..

/-- What `Accept` reports over the lines of records, the first of them at line `seq`: each
record is ready with its last line, as the frame it is the text of, and not before. -/
def reports : Nat → List Json → List (Option Json)
  | _, [] => []
  | seq, frame :: frames =>
    List.replicate (lineCount frame - 1) none ++
      [some (frame.norm.set "seq" (.uint (seq + lineCount frame - 1)))] ++
      reports (seq + lineCount frame) frames

/-- One record, whole or in fragments. -/
theorem accepts_record {env : Env} {id : Bytes} {frame : Json}
    (h : Logical env id frame) (hrec : frame.dump.length ≤ Limits.recordBytes) (seq : Nat)
    {a : Assembler} (ha : a.Idle) :
    ∃ b : Assembler, b.Idle ∧
      Accepts env a ((numbered seq (Spool.recordFrames env id seq frame)).map Json.norm)
        (List.replicate (lineCount frame - 1) none ++
          [some (frame.norm.set "seq" (.uint (seq + lineCount frame - 1)))]) b := by
  unfold Spool.recordFrames lineCount
  split
  · obtain ⟨t, ht, htype⟩ := h.type
    have hne : t ≠ utf8 "fragment" := by rcases htype with rfl | rfl | rfl <;> decide
    have hframe : (frame.set "seq" (.uint seq)).norm = frame.norm.set "seq" (.uint seq) :=
      Json.norm_set ..
    refine ⟨{ a with data := [], total := 0 }, ⟨rfl, rfl⟩, .cons ?_ (.nil _)⟩
    rw [hframe]
    exact accept_plain env ha ((Json.get?_set_of_ne (by decide) _ _).trans h.id_eq)
      ((Json.get?_set_of_ne (by decide) _ _).trans ht) hne
  · have hpos : frame.dump ≠ [] := List.length_pos_iff.1 (Json.length_dump_pos frame)
    have hblock : 0 < Spool.block := by decide
    exact accepts_fragments h hrec seq (blocks_ne_nil hpos) (ha.holds ..)
      (by rw [List.nil_append, flatten_blocks hblock])
      (fun p hp => mem_blocks hblock hp) (fun p hp => length_of_mem_dropLast_blocks hp)

/-- The records of a file, one after the other. -/
theorem accepts_records {env : Env} {id : Bytes} {frames : List Json} :
    ∀ {seq : Nat} {a : Assembler}, a.Idle →
      (∀ frame ∈ frames, Logical env id frame ∧ frame.dump.length ≤ Limits.recordBytes) →
      ∃ b : Assembler, b.Idle ∧
        Accepts env a ((numbered seq (Spool.recordsFrames env id seq frames)).map Json.norm)
          (reports seq frames) b := by
  induction frames with
  | nil => exact fun ha _ => ⟨_, ha, .nil _⟩
  | cons frame frames ih =>
    intro seq a ha hall
    obtain ⟨hlog, hrec⟩ := hall frame List.mem_cons_self
    obtain ⟨b, hb, hhead⟩ := accepts_record hlog hrec seq ha
    obtain ⟨c, hc, htail⟩ := @ih (seq + lineCount frame) b hb fun f hf =>
      hall f (List.mem_cons_of_mem _ hf)
    refine ⟨c, hc, ?_⟩
    rw [Spool.recordsFrames, numbered_append, length_recordFrames, List.map_append, reports]
    exact hhead.append htail

end Assembler

/-! ## The frames of a spool file -/

/-- The frames of a file: its lines, parsed. -/
def readFrames (env : Env) (file : Bytes) : Option (List Json) :=
  (lines file).mapM (Json.parse env.strtod)

/-- The lines of good frames parse to the frames. -/
theorem readFrames_linesOf {env : Env} {frames : List Json}
    (h : ∀ frame ∈ frames, frame.Good env.strtod) :
    readFrames env (linesOf frames) = some (frames.map Json.norm) := by
  have hlines : lines (linesOf frames) = frames.map Json.dump := by
    refine lines_flatten fun l hl b hb => ?_
    obtain ⟨frame, hf, rfl⟩ := List.mem_map.1 hl
    exact Json.ne_newline_of_mem_dump hb
  rw [readFrames, hlines]
  clear hlines
  induction frames with
  | nil => rfl
  | cons frame frames ih =>
    rw [List.map_cons, List.mapM_cons, Json.parse_dump (h frame List.mem_cons_self),
      ih fun f hf => h f (List.mem_cons_of_mem _ hf)]
    rfl

/-- Good frames stay good when they are numbered. -/
theorem good_numbered {env : Env} {frames : List Json} :
    ∀ {seq : Nat}, seq + frames.length ≤ 2 ^ 64 → (∀ frame ∈ frames, frame.Good env.strtod) →
      ∀ frame ∈ numbered seq frames, frame.Good env.strtod := by
  induction frames with
  | nil => simp [numbered]
  | cons f fs ih =>
    intro seq hseq hgood frame hframe
    rw [List.length_cons] at hseq
    rw [numbered, List.mem_cons] at hframe
    rcases hframe with rfl | hframe
    · refine (hgood f List.mem_cons_self).set (by decide) ?_
      rw [Json.Good]
      omega
    · exact ih (by omega) (fun g hg => hgood g (List.mem_cons_of_mem _ hg)) frame hframe

/-- A fragment is a good frame. -/
theorem good_fragment {env : Env} {id digest data : Bytes} {record total offset : Nat}
    (hid : Utf8.Valid id) (hdigest : Utf8.Valid digest) (hrecord : record < 2 ^ 64)
    (htotal : total < 2 ^ 64) (hoffset : offset < 2 ^ 64) :
    (Spool.fragment id digest record total offset data).Good env.strtod := by
  have hdata : Utf8.Valid (Base64.encode data) :=
    Utf8.valid_of_ascii fun b hb => (Base64.mem_encode hb).2.1
  refine Json.good_object ?_
  simp only [List.mem_cons, List.not_mem_nil, or_false, forall_eq_or_imp, forall_eq, Json.Good]
  exact ⟨⟨by decide, hid⟩, ⟨by decide, by decide⟩, ⟨by decide, hrecord⟩, ⟨by decide, hoffset⟩,
    ⟨by decide, htotal⟩, ⟨by decide, hdigest⟩, ⟨by decide, by decide⟩, by decide, hdata⟩

/-- All fragments of a record are good. -/
theorem good_fragments {env : Env} {id digest : Bytes} {record total : Nat} (hid : Utf8.Valid id)
    (hdigest : Utf8.Valid digest) (hrecord : record < 2 ^ 64) (htotal : total < 2 ^ 64)
    {pieces : List Bytes} :
    ∀ {offset : Nat}, offset + Spool.block * pieces.length < 2 ^ 64 →
      ∀ frame ∈ Spool.fragments id digest record total offset pieces, frame.Good env.strtod := by
  induction pieces with
  | nil => simp [Spool.fragments]
  | cons p ps ih =>
    intro offset hoffset frame hframe
    rw [List.length_cons, Nat.mul_succ] at hoffset
    rw [Spool.fragments, List.mem_cons] at hframe
    rcases hframe with rfl | hframe
    · exact good_fragment hid hdigest hrecord htotal (by omega)
    · exact ih (by omega) frame hframe

/-- The frames of a good record are good. -/
theorem good_recordFrames {env : Env} {id : Bytes} {seq : Nat} {frame : Json}
    (hid : Utf8.Valid id) (hseq : seq < 2 ^ 64) (hgood : frame.Good env.strtod)
    (hrec : frame.dump.length ≤ Limits.recordBytes) :
    ∀ f ∈ Spool.recordFrames env id seq frame, f.Good env.strtod := by
  unfold Spool.recordFrames
  split
  · simpa using hgood
  · have hcount := length_blocks_le (n := Spool.block) frame.dump
    simp only [Limits.recordBytes] at hrec
    refine good_fragments hid (valid_hex _) hseq (by omega) ?_
    simp only [Spool.block] at hcount ⊢
    omega

/-- The frames of good records are good, if their numbers fit. -/
theorem good_recordsFrames {env : Env} {id : Bytes} (hid : Utf8.Valid id) {frames : List Json} :
    ∀ {seq : Nat}, seq + (Spool.recordsFrames env id seq frames).length < 2 ^ 64 →
      (∀ frame ∈ frames, frame.Good env.strtod ∧ frame.dump.length ≤ Limits.recordBytes) →
      ∀ f ∈ Spool.recordsFrames env id seq frames, f.Good env.strtod := by
  induction frames with
  | nil => simp [Spool.recordsFrames]
  | cons frame frames ih =>
    intro seq hseq hall f hf
    rw [Spool.recordsFrames, List.length_append] at hseq
    rw [Spool.recordsFrames, List.mem_append] at hf
    obtain ⟨hgood, hrec⟩ := hall frame List.mem_cons_self
    rcases hf with hf | hf
    · exact good_recordFrames hid (by omega) hgood hrec f hf
    · exact ih (by omega) (fun g hg => hall g (List.mem_cons_of_mem _ hg)) f hf

namespace Assembler

/-- The frame of an item is logical: an assembler that gets it whole reports it. -/
theorem logical_chunk {env : Env} {id : Bytes} (hid : Utf8.Valid id) {item : Json} (hgood : item.Good env.strtod)
    (hdepth : item.depth ≤ 30) : Logical env id (Spool.chunk id item) where
  good := by
    refine Json.good_object ?_
    simp only [List.mem_cons, List.not_mem_nil, or_false, forall_eq_or_imp, forall_eq, Json.Good,
      Json.Good.GoodItems]
    exact ⟨⟨by decide, hid⟩, ⟨by decide, by decide⟩, by decide, hgood, trivial⟩
  depth := by
    have : (Spool.chunk id item).depth = 1 + max 0 (max (1 + max item.depth 0) (max 0 0)) := rfl
    omega
  object := ⟨_, rfl⟩
  id_eq := rfl
  type := ⟨_, rfl, .inl rfl⟩

/-- The frame of a result is logical. -/
theorem logical_result {env : Env} {id : Bytes} (hid : Utf8.Valid id) {value : Json} (hgood : value.Good env.strtod)
    (hdepth : value.depth ≤ 30) : Logical env id (result id value) where
  good := by
    refine Json.good_object ?_
    simp only [List.mem_cons, List.not_mem_nil, or_false, forall_eq_or_imp, forall_eq, Json.Good]
    exact ⟨⟨by decide, hid⟩, ⟨by decide, by decide⟩, by decide, hgood⟩
  depth := by
    have : (result id value).depth = 1 + max 0 (max value.depth (max 0 0)) := rfl
    omega
  object := ⟨_, rfl⟩
  id_eq := rfl
  type := ⟨_, rfl, .inr (.inl rfl)⟩

/-- The frame of an error is logical. -/
theorem logical_error {env : Env} {id : Bytes} (hid : Utf8.Valid id) {status : Status}
    (hcode : Utf8.Valid status.code) (hmessage : Utf8.Valid status.message) :
    Logical env id (error id status) where
  good := by
    refine Json.good_object ?_
    simp only [List.mem_cons, List.not_mem_nil, or_false, forall_eq_or_imp, forall_eq]
    have htype : Utf8.Valid (utf8 "error") := by decide
    refine ⟨⟨by decide, hid⟩, ⟨by decide, htype⟩, by decide, Json.good_object ?_⟩
    simp only [List.mem_cons, List.not_mem_nil, or_false, forall_eq_or_imp, forall_eq]
    exact ⟨⟨by decide, hcode⟩, by decide, hmessage⟩
  depth := by
    have : (error id status).depth = 1 + max (1 + max 0 (max 0 0)) (max 0 (max 0 0)) := rfl
    omega
  object := ⟨_, rfl⟩
  id_eq := rfl
  type := ⟨_, rfl, .inr (.inr rfl)⟩

end Assembler

/-- The lines of several records. -/
theorem length_recordsFrames (env : Env) (id : Bytes) {frames : List Json} :
    ∀ seq, (Spool.recordsFrames env id seq frames).length =
      (frames.map Assembler.lineCount).sum := by
  induction frames with
  | nil => intro _; rfl
  | cons frame frames ih =>
    intro seq
    rw [Spool.recordsFrames, List.length_append, Assembler.length_recordFrames, ih, List.map_cons,
      List.sum_cons]

/-! ## The frame that ends a dump -/

/-- A number of 64 bits has at most twenty digits. -/
theorem length_dump_uint {n : Nat} (h : n < 2 ^ 64) : (Json.uint n).dump.length ≤ 20 :=
  length_decimal_le (by decide) (h.trans (by decide))

/-- The frame is short, whatever it counts. -/
theorem length_complete_le {id : Bytes} (hid : isIdText id = true) {chunks items seq : Nat}
    (hchunks : chunks < 2 ^ 64) (hitems : items < 2 ^ 64) (hseq : seq < 2 ^ 64) :
    ((Spool.complete id chunks items).set "seq" (.uint seq)).dump.length ≤ 1000 := by
  have hform : (Spool.complete id chunks items).set "seq" (.uint seq) =
      .obj [("chunks", .uint chunks), ("id", .str id), ("items", .uint items),
        ("seq", .uint seq), ("type", .str "complete")] := rfl
  have hlen : id.length ≤ 96 := by
    simp only [isIdText, Bool.and_eq_true, decide_eq_true_eq] at hid
    exact hid.1.2
  have hquote := Json.length_quote_le (valid_of_isIdText hid)
  have h₁ := length_dump_uint hchunks
  have h₂ := length_dump_uint hitems
  have h₃ := length_dump_uint hseq
  have hkeys : (Json.quote "chunks").length = 8 ∧ (Json.quote "id").length = 4 ∧
      (Json.quote "items").length = 7 ∧ (Json.quote "seq").length = 5 ∧
      (Json.quote "type").length = 6 ∧ (Json.dump (.str "complete")).length = 10 := by decide
  have hdump : (Json.dump (.str id)) = Json.quote id := rfl
  rw [hform, Json.length_dump_obj (by simp)]
  simp only [List.map_cons, List.map_nil, List.sum_cons, List.sum_nil, Json.memberLen, hkeys, hdump]
  omega

namespace Spool

/-- A terminal write of a short frame on a sound file system. -/
theorem write_terminal {sp : Spool} {frame : Json} (hopened : sp.opened = true)
    (hdisk : sp.disk = []) (hlen : (sp.line frame).length ≤ Limits.frameBytes) :
    sp.write frame true =
      (true, { sp with file := sp.file ++ sp.line frame,
                       bytes := sp.bytes + (sp.line frame).length, seq := sp.seq + 1 }) := by
  unfold write writeAll io
  simp only [hopened, hdisk]
  rw [if_neg (by simpa using hlen)]
  rfl

/-- `Finish` of a dump that went well. -/
theorem finish_complete {sp : Spool} (hid : isIdText sp.id = true) (hstatus : sp.status = {})
    (hopened : sp.opened = true) (hdisk : sp.disk = []) (hseq : sp.seq < 2 ^ 64)
    (hitems : sp.items < 2 ^ 64) :
    (sp.finish {}).1 = {} ∧
      (sp.finish {}).2.file = sp.file ++
        linesOf [(complete sp.id sp.seq sp.items).set "seq" (.uint sp.seq)] := by
  have hlen : (sp.line (complete sp.id sp.seq sp.items)).length ≤ Limits.frameBytes := by
    have := length_complete_le hid hseq hitems hseq
    simp only [line, List.length_append, List.length_singleton, Limits.frameBytes]
    omega
  have hok : Status.ok {} = true := rfl
  unfold finish
  rw [hstatus, if_neg (by decide)]
  simp only [hok, if_true]
  rw [write_terminal hopened hdisk hlen]
  simp only [fsync, io, hdisk]
  exact ⟨trivial, by simp [line, linesOf]⟩

end Spool

end VppJson
