import VppJsonGateway.Spool
import VppJsonGateway.Lib.JsonText

/-!
# What a spool writes

The lines of a spool are the frames it was given, each with its place in the sequence. `Wrote` says
what a run of successful writes did to a spool, whatever was written.
-/

namespace VppJson

open Lib

/-! ## The nesting guard on a value's text -/

namespace Nesting

/-- The guard reads a text in pieces. -/
theorem run_append (s : Nesting) (x y : Bytes) : s.run (x ++ y) = (s.run x).bind (·.run y) := by
  induction x generalizing s with
  | nil => rfl
  | cons c x ih =>
    simp only [List.cons_append, run]
    cases s.step c with
    | none => rfl
    | some t => exact ih t

/-- Outside strings, only quotes and brackets count. -/
theorem run_plain {d : Int} {s : Bytes} (h : ∀ b ∈ s, Json.isPlainByte b = true) :
    run { depth := d } s = some { depth := d } := by
  induction s with
  | nil => rfl
  | cons b s ih =>
    have hne : ∀ c : UInt8, Json.isPlainByte c = false → b ≠ c := by
      rintro c hc rfl
      rw [h b List.mem_cons_self] at hc
      cases hc
    have hstep : step { depth := d } b = some { depth := d } := by
      simp [step, hne 34 rfl, hne 123 rfl, hne 91 rfl, hne 125 rfl, hne 93 rfl]
    rw [run, hstep]
    exact ih fun c hc => h c (List.mem_cons_of_mem _ hc)

/-- Inside a string, plain characters do not count. -/
theorem run_quoted_plain {d : Int} {s : Bytes} (h : ∀ b ∈ s, b ≠ 34 ∧ b ≠ 92) :
    run { depth := d, quoted := true } s = some { depth := d, quoted := true } := by
  induction s with
  | nil => rfl
  | cons b s ih =>
    have hb := h b List.mem_cons_self
    have hstep : step { depth := d, quoted := true } b = some { depth := d, quoted := true } := by
      simp [step, hb.1, hb.2]
    rw [run, hstep]
    exact ih fun c hc => h c (List.mem_cons_of_mem _ hc)

/-- An escaped character leaves the guard inside the string. -/
theorem run_escapeByte (d : Int) (b : UInt8) :
    run { depth := d, quoted := true } (escapeByte b) = some { depth := d, quoted := true } := by
  rcases escapeByte_cases b with ⟨he, -, h34, h92⟩ | ⟨c, s, he, -, hs⟩
  · rw [he]
    refine run_quoted_plain ?_
    simpa using ⟨h34, h92⟩
  · have hslash : step { depth := d, quoted := true } 92 =
        some { depth := d, quoted := true, escaped := true } := rfl
    have hnext : step { depth := d, quoted := true, escaped := true } c =
        some { depth := d, quoted := true } := rfl
    rw [he, run, hslash, Option.bind_some, run, hnext]
    exact run_quoted_plain fun x hx => (hs x hx).2

/-- Within a string the guard counts nothing: a quotation mark there is escaped. -/
theorem run_escape (d : Int) (s : Bytes) :
    run { depth := d, quoted := true } (s.flatMap escapeByte) =
      some { depth := d, quoted := true } := by
  induction s with
  | nil => rfl
  | cons b s ih =>
    rw [List.flatMap_cons, run_append, run_escapeByte]
    exact ih

/-- The guard is a reader of values: a text of nesting `n` passes from any level that leaves
room for `n` more. -/
theorem reads : Json.Reads fun n s =>
    ∀ d : Int, d + n ≤ 32 → run { depth := d } s = some { depth := d } where
  plain hs _ _ := run_plain hs
  quoted s d _ := by
    rw [run, show step { depth := d } 34 = some { depth := d, quoted := true } from rfl,
      Option.bind_some, run_append, run_escape]
    rfl
  punct hb d _ := by rcases hb with rfl | rfl <;> rfl
  append hs ht d hd := by rw [run_append, hs d hd]; exact ht d hd
  nest := by
    intro n s b c hbc hs d hd
    have hopen : step { depth := d } b = some { depth := d + 1 } := by
      have hroom : ¬ d + 1 > 32 := by push_cast at hd; omega
      rcases hbc with ⟨rfl, -⟩ | ⟨rfl, -⟩ <;> simp [step, hroom]
    have hclose : run { depth := d + 1 } [c] = some { depth := d } := by
      rcases hbc with ⟨-, rfl⟩ | ⟨-, rfl⟩ <;> simp [run, step]
    rw [run, hopen, Option.bind_some, run_append, hs (d + 1) (by push_cast at hd; omega)]
    exact hclose

end Nesting

/-- A value of nesting at most 32 passes the guard. -/
theorem checkNesting_dump {j : Json} (hd : j.depth ≤ 32) : checkNesting j.dump = {} := by
  have hrun := Nesting.reads.dump j le_rfl 0 (by omega)
  rw [checkNesting, show ({} : Nesting) = { depth := 0 } from rfl, hrun]

/-! ## What a run of writes does -/

/-- A frame that names a request. -/
def Names (id : Bytes) (frame : Json) : Prop :=
  frame.isObject = true ∧ frame.get? "id" = some (.str id)

/-- A result names its request. -/
theorem names_result (id : Bytes) (value : Json) : Names id (result id value) := ⟨rfl, rfl⟩

/-- An error names its request. -/
theorem names_error (id : Bytes) (status : Status) : Names id (error id status) := ⟨rfl, rfl⟩

/-- Frames with the sequence numbers a spool gives them, from `seq` on. -/
def numbered : Nat → List Json → List Json
  | _, [] => []
  | seq, frame :: frames => frame.set "seq" (.uint seq) :: numbered (seq + 1) frames

/-- The text of frames, one a line. -/
def linesOf (frames : List Json) : Bytes := ((frames.map Json.dump).map (· ++ [10])).flatten

/-- Frames that are numbered in two goes. -/
theorem numbered_append (seq : Nat) (xs ys : List Json) :
    numbered seq (xs ++ ys) = numbered seq xs ++ numbered (seq + xs.length) ys := by
  induction xs generalizing seq with
  | nil => rfl
  | cons x xs ih =>
    rw [List.cons_append, numbered, ih, numbered, List.cons_append, List.length_cons,
      Nat.add_right_comm, Nat.add_assoc seq]

@[simp] theorem length_numbered (seq : Nat) (xs : List Json) :
    (numbered seq xs).length = xs.length := by
  induction xs generalizing seq with
  | nil => rfl
  | cons x xs ih => rw [numbered, List.length_cons, List.length_cons, ih]

/-- The lines of frames in two goes. -/
theorem linesOf_append (xs ys : List Json) : linesOf (xs ++ ys) = linesOf xs ++ linesOf ys := by
  simp [linesOf]

/-- The spool `sp'` is `sp` after the frames were written to it within its limit, `items` of
them counted as items. -/
structure Wrote (items : Nat) (frames : List Json) (sp sp' : Spool) : Prop where
  file : sp'.file = sp.file ++ linesOf (numbered sp.seq frames)
  seq : sp'.seq = sp.seq + frames.length
  items : sp'.items = sp.items + items
  id : sp'.id = sp.id
  status : sp'.status = sp.status
  opened : sp'.opened = sp.opened
  disk : sp.disk = [] → sp'.disk = []
  bytes : sp.seq ≤ sp.bytes → sp'.seq ≤ sp'.bytes
  limit : sp.bytes ≤ sp.limit → sp'.bytes ≤ sp.limit
  limit_eq : sp'.limit = sp.limit

namespace Wrote

/-- Nothing is written. -/
theorem refl (sp : Spool) : Wrote 0 [] sp sp where
  file := by simp [numbered, linesOf]
  seq := rfl
  items := rfl
  id := rfl
  status := rfl
  opened := rfl
  disk := fun h => h
  bytes := fun h => h
  limit := fun h => h
  limit_eq := rfl

/-- What is written in turn is written together. -/
theorem trans {m n : Nat} {xs ys : List Json} {sp sp' sp'' : Spool} (h : Wrote m xs sp sp')
    (h' : Wrote n ys sp' sp'') : Wrote (m + n) (xs ++ ys) sp sp'' where
  file := by rw [h'.file, h.file, h.seq, numbered_append, linesOf_append, List.append_assoc]
  seq := by rw [h'.seq, h.seq, List.length_append, Nat.add_assoc]
  items := by rw [h'.items, h.items, Nat.add_assoc]
  id := h'.id.trans h.id
  status := h'.status.trans h.status
  opened := h'.opened.trans h.opened
  disk := fun hd => h'.disk (h.disk hd)
  bytes := fun hb => h'.bytes (h.bytes hb)
  limit := fun hl => h.limit_eq ▸ h'.limit (h.limit_eq.symm ▸ h.limit hl)
  limit_eq := h'.limit_eq.trans h.limit_eq

end Wrote

namespace Spool

/-- A successful write, exactly. -/
theorem write_true {sp sp' : Spool} {frame : Json} {terminal : Bool}
    (h : sp.write frame terminal = (true, sp')) :
    sp' = { sp with file := sp.file ++ sp.line frame, bytes := sp.bytes + (sp.line frame).length,
                    seq := sp.seq + 1, disk := sp.disk.tail } ∧
      (terminal = false → sp.bytes + (sp.line frame).length + 1024 ≤ sp.limit) := by
  unfold write at h
  simp only at h
  split at h
  · cases h
  · next hroom =>
    rw [not_or, not_and] at hroom
    split at h
    · cases h
    · unfold writeAll io at h
      cases hd : sp.disk with
      | nil =>
        rw [hd] at h
        simp only [Prod.mk.injEq, true_and] at h
        refine ⟨?_, fun ht => not_lt.1 (hroom.2 ht)⟩
        rw [← h, List.tail_nil, ← hd]
      | cons o ds =>
        rw [hd] at h
        cases o with
        | ok =>
          simp only [Prod.mk.injEq, true_and] at h
          exact ⟨h.symm, fun ht => not_lt.1 (hroom.2 ht)⟩
        | fail n => cases h

/-- A line is one frame with its number. -/
theorem line_eq (sp : Spool) (frame : Json) : sp.line frame = linesOf (numbered sp.seq [frame]) := by
  simp [line, numbered, linesOf]

/-- A successful write that is not the last one of its response. -/
theorem wrote_of_write {sp sp' : Spool} {frame : Json} (h : sp.write frame false = (true, sp')) :
    Wrote 0 [frame] sp sp' := by
  obtain ⟨rfl, hlim⟩ := write_true h
  have hpos : 0 < (sp.line frame).length := by simp [line]
  exact {
    file := by rw [line_eq]
    seq := rfl
    items := rfl
    id := rfl
    status := rfl
    opened := rfl
    disk := fun hd => by simp [hd]
    bytes := fun hb => by simp only; omega
    limit := fun _ => by have := hlim rfl; simp only; omega
    limit_eq := rfl }

/-- The fragments a record is cut into, from an offset on. -/
def fragments (id digest : Bytes) (record total : Nat) : Nat → List Bytes → List Json
  | _, [] => []
  | offset, piece :: pieces =>
    fragment id digest record total offset piece ::
      fragments id digest record total (offset + block) pieces

/-- There is one fragment for each piece. -/
theorem length_fragments (id digest : Bytes) (record total : Nat) (pieces : List Bytes) :
    ∀ offset, (fragments id digest record total offset pieces).length = pieces.length := by
  induction pieces with
  | nil => intro _; rfl
  | cons p ps ih => intro offset; rw [fragments, List.length_cons, List.length_cons, ih]

/-- The fragments of a record, by induction on the pieces. -/
theorem wrote_of_writeFragments {digest : Bytes} {record total : Nat} {pieces : List Bytes} :
    ∀ {sp sp' : Spool} {offset : Nat},
      writeFragments digest record total sp offset pieces = (true, sp') →
      Wrote 0 (fragments sp.id digest record total offset pieces) sp sp' := by
  induction pieces with
  | nil =>
    intro sp sp' offset h
    cases h
    exact Wrote.refl sp
  | cons p ps ih =>
    intro sp sp' offset h
    rw [writeFragments] at h
    cases hw : sp.write (fragment sp.id digest record total offset p) false with
    | mk ok sp₁ =>
      rw [hw] at h
      cases ok with
      | false => cases h
      | true =>
        have h₁ := wrote_of_write hw
        have h₂ := ih h
        rw [h₁.id] at h₂
        exact h₁.trans h₂

/-- The frames a record is written as: itself, or its fragments. -/
def recordFrames (env : Env) (id : Bytes) (seq : Nat) (frame : Json) : List Json :=
  if frame.dump.length + 64 ≤ Limits.frameBytes then [frame]
  else fragments id (env.sha256 frame.dump) seq frame.dump.length 0 (blocks block frame.dump)

/-- A record is written as one frame or as its fragments, and is no longer than 16 MiB. -/
theorem wrote_of_writeRecord {env : Env} {sp sp' : Spool} {frame : Json}
    (h : sp.writeRecord env frame = (true, sp')) :
    Wrote 0 (recordFrames env sp.id sp.seq frame) sp sp' ∧
      frame.dump.length ≤ Limits.recordBytes := by
  unfold writeRecord at h
  unfold recordFrames
  simp only at h
  split at h
  · next hsmall =>
    rw [if_pos hsmall]
    refine ⟨wrote_of_write h, ?_⟩
    simp only [Limits.frameBytes, Limits.recordBytes] at hsmall ⊢
    omega
  · next hbig =>
    rw [if_neg hbig]
    split at h
    · cases h
    · next hfit => exact ⟨wrote_of_writeFragments h, not_lt.1 hfit⟩

/-- The frames of several records. -/
def recordsFrames (env : Env) (id : Bytes) : Nat → List Json → List Json
  | _, [] => []
  | seq, frame :: frames =>
    recordFrames env id seq frame ++
      recordsFrames env id (seq + (recordFrames env id seq frame).length) frames

/-- The lines of a record name the request the record names. -/
theorem names_recordFrames {env : Env} {id : Bytes} {seq : Nat} {frame : Json}
    (h : Names id frame) : ∀ f ∈ recordFrames env id seq frame, Names id f := by
  unfold recordFrames
  split
  · intro f hf
    exact List.mem_singleton.1 hf ▸ h
  · generalize blocks block frame.dump = pieces
    generalize (0 : Nat) = offset
    induction pieces generalizing offset with
    | nil => exact fun _ hf => absurd hf List.not_mem_nil
    | cons piece pieces ih =>
      intro f hf
      rcases List.mem_cons.1 hf with rfl | hf
      · exact ⟨rfl, rfl⟩
      · exact ih _ f hf

/-- The frames of records name the request, if the records do. -/
theorem names_recordsFrames {env : Env} {id : Bytes} {frames : List Json} :
    ∀ {seq : Nat}, (∀ frame ∈ frames, Names id frame) →
      ∀ f ∈ recordsFrames env id seq frames, Names id f := by
  induction frames with
  | nil => exact fun _ _ hf => absurd hf List.not_mem_nil
  | cons frame frames ih =>
    intro seq h f hf
    rcases List.mem_append.1 hf with hf | hf
    · exact names_recordFrames (h frame List.mem_cons_self) f hf
    · exact ih (fun g hg => h g (List.mem_cons_of_mem _ hg)) f hf

/-- An item is written as a `chunk`. -/
theorem wrote_of_add {env : Env} {sp sp' : Spool} {item : Json}
    (h : sp.add env item = (true, sp')) :
    Wrote 1 (recordFrames env sp.id sp.seq (chunk sp.id item)) sp sp' ∧
      (chunk sp.id item).dump.length ≤ Limits.recordBytes := by
  unfold add at h
  split at h
  · cases h
  · cases hw : sp.writeRecord env (chunk sp.id item) with
    | mk ok sp₁ =>
      rw [hw] at h
      cases ok with
      | false => cases h
      | true =>
        obtain ⟨h₁, hfit⟩ := wrote_of_writeRecord hw
        cases h
        refine ⟨{ h₁ with items := ?_ }, hfit⟩
        simp only [h₁.items]

/-- Items are written one after the other, if all are taken. -/
theorem wrote_of_addAll {env : Env} {items : List Json} :
    ∀ {sp : Spool}, (∀ ok ∈ (addAll env sp items).1, ok = true) →
      Wrote items.length (recordsFrames env sp.id sp.seq (items.map (chunk sp.id))) sp
        (addAll env sp items).2 ∧
      ∀ item ∈ items, (chunk sp.id item).dump.length ≤ Limits.recordBytes := by
  induction items with
  | nil => exact fun _ => ⟨Wrote.refl _, by simp⟩
  | cons item items ih =>
    intro sp h
    cases ha : sp.add env item with
    | mk ok sp₁ =>
      simp only [addAll, ha, List.mem_cons, forall_eq_or_imp] at h ⊢
      obtain ⟨rfl, hall⟩ := h
      obtain ⟨h₁, hfit⟩ := wrote_of_add ha
      obtain ⟨h₂, hfits⟩ := ih hall
      rw [h₁.id] at hfits
      rw [h₁.id, h₁.seq] at h₂
      refine ⟨?_, hfit, hfits⟩
      rw [List.length_cons, Nat.add_comm]
      exact h₁.trans h₂

end Spool

end VppJson
