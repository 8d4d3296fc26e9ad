import VppJsonGateway.SpoolReads

/-!
# Room in a spool

A spool with an intact file takes every item that is not too long, as long as there is room for the
lines of its record. Each line has at most 66,000 octets for a block of the record.
-/

namespace VppJson

open Lib

namespace Spool

variable {env : Env} {sp : Spool}

/-- A write that there is room for. -/
theorem write_room {frame : Json} (hopened : sp.opened = true) (hdisk : sp.disk = [])
    (hline : (sp.line frame).length ≤ Limits.frameBytes)
    (hroom : sp.bytes + (sp.line frame).length + 1024 ≤ sp.limit) :
    sp.write frame false = (true, { sp with
      file := sp.file ++ sp.line frame
      bytes := sp.bytes + (sp.line frame).length
      seq := sp.seq + 1 }) := by
  unfold write
  rw [if_neg (by omega), if_neg (by simp [hopened])]
  simp only [writeAll, io, hdisk]

/-- The line of a fragment: a block in base64, and less than 500 octets around it. -/
theorem length_fragment_le {id text data : Bytes} {record total offset seq : Nat}
    (hid : isIdText id = true) (hdata : data.length ≤ block) (hrecord : record < 2 ^ 64)
    (htotal : total < 2 ^ 64) (hoffset : offset < 2 ^ 64) (hseq : seq < 2 ^ 64) :
    ((fragment id (env.sha256 text) record total offset data).set "seq" (.uint seq)).dump.length + 1 ≤
      66000 := by
  have hform : (fragment id (env.sha256 text) record total offset data).set "seq" (.uint seq) =
      .obj [("data", .str (Base64.encode data)), ("encoding", .str "base64-json"), ("id", .str id),
        ("offset", .uint offset), ("record", .uint record), ("seq", .uint seq),
        ("sha256", .str (env.sha256 text)), ("total", .uint total), ("type", .str "fragment")] := rfl
  have hlen : id.length ≤ 96 := by
    simp only [isIdText, Bool.and_eq_true, decide_eq_true_eq] at hid
    exact hid.1.2
  have hquote : (Json.dump (.str id)).length = id.length + 2 :=
    Json.length_quote_plain fun b hb => mem_isIdText hid hb
  have hblock : (Json.dump (.str (Base64.encode data))).length = 4 * ((data.length + 2) / 3) + 2 :=
    (Json.length_quote_plain fun b hb => Base64.mem_encode hb).trans
      (congrArg (· + 2) (Base64.length_encode data))
  have hdigest : (Json.dump (.str (env.sha256 text))).length = 66 := by
    refine (Json.length_quote_plain fun b hb => mem_hex hb).trans ?_
    rw [length_hex, (env.digest text).2]
  have h₁ := length_dump_uint hrecord
  have h₂ := length_dump_uint htotal
  have h₃ := length_dump_uint hoffset
  have h₄ := length_dump_uint hseq
  have hkeys : (Json.quote "data").length = 6 ∧ (Json.quote "encoding").length = 10 ∧
      (Json.quote "id").length = 4 ∧ (Json.quote "offset").length = 8 ∧
      (Json.quote "record").length = 8 ∧ (Json.quote "seq").length = 5 ∧
      (Json.quote "sha256").length = 8 ∧ (Json.quote "total").length = 7 ∧
      (Json.quote "type").length = 6 ∧ (Json.dump (.str "base64-json")).length = 13 ∧
      (Json.dump (.str "fragment")).length = 10 := by decide
  rw [hform, Json.length_dump_obj (by simp)]
  simp only [List.map_cons, List.map_nil, List.sum_cons, List.sum_nil, Json.memberLen, hkeys, hquote,
    hblock, hdigest]
  simp only [block] at hdata
  omega

/-- The fragments of a record, by induction on its blocks. -/
theorem writeFragments_room {text : Bytes} {record total : Nat} (hrecord : record < 2 ^ 64)
    (htotal : total < 2 ^ 64) {pieces : List Bytes} (hpieces : ∀ piece ∈ pieces, piece.length ≤ block) :
    ∀ {sp : Spool} {offset : Nat}, isIdText sp.id = true → sp.opened = true → sp.disk = [] →
      sp.bytes + 66000 * pieces.length + 1024 ≤ sp.limit → sp.seq + pieces.length < 2 ^ 64 →
        offset + block * pieces.length < 2 ^ 64 →
          (writeFragments (env.sha256 text) record total sp offset pieces).1 = true := by
  induction pieces with
  | nil => exact fun _ _ _ _ _ _ => rfl
  | cons piece pieces ih =>
    intro sp offset hid hopened hdisk hroom hseq hoffset
    rw [List.length_cons] at hroom hseq hoffset
    have hline := @length_fragment_le env sp.id text piece record total offset sp.seq hid
      (hpieces piece List.mem_cons_self) hrecord htotal (by omega) (by omega)
    have hlength : (sp.line (fragment sp.id (env.sha256 text) record total offset piece)).length ≤
        66000 := by
      rw [line, List.length_append]
      exact hline
    rw [writeFragments, write_room hopened hdisk (by simp only [Limits.frameBytes]; omega) (by omega)]
    refine ih (fun p hp => hpieces p (List.mem_cons_of_mem _ hp)) hid hopened hdisk ?_ ?_ ?_
    · simp only
      omega
    · simp only
      omega
    · simp only [block] at hoffset ⊢
      omega

/-- A record has no more blocks than its length allows. -/
theorem length_blocks_div (text : Bytes) : (blocks block text).length ≤ text.length / block + 1 := by
  have hblocks := mul_length_blocks_lt (show 0 < block by decide) text
  simp only [show block = 49152 from rfl] at hblocks ⊢
  omega

/-- **An item that there is room for is added.** -/
theorem add_room {item : Json} (hid : isIdText sp.id = true) (hstatus : sp.status.ok = true)
    (hopened : sp.opened = true) (hdisk : sp.disk = []) (hseq : sp.seq + 1024 < 2 ^ 64)
    (hlong : (chunk sp.id item).dump.length ≤ Limits.recordBytes)
    (hroom : sp.bytes + 66000 * ((chunk sp.id item).dump.length / block + 1) + 1024 ≤ sp.limit) :
    (sp.add env item).1 = true := by
  have hwrite : (sp.writeRecord env (chunk sp.id item)).1 = true := by
    unfold writeRecord
    simp only
    split_ifs with hshort hover
    · have hform : (chunk sp.id item).set "seq" (.uint sp.seq) = .obj [("id", .str sp.id),
          ("items", .arr [item]), ("seq", .uint sp.seq), ("type", .str "chunk")] := rfl
      have hchunk : chunk sp.id item = .obj [("id", .str sp.id), ("items", .arr [item]),
          ("type", .str "chunk")] := rfl
      have hnumber := @length_dump_uint sp.seq (by omega)
      have hkey : (Json.quote "seq").length = 5 := by decide
      have hline : (sp.line (chunk sp.id item)).length ≤ (chunk sp.id item).dump.length + 28 := by
        rw [line, List.length_append, hform, hchunk, Json.length_dump_obj (by simp),
          Json.length_dump_obj (by simp)]
        simp only [List.map_cons, List.map_nil, List.sum_cons, List.sum_nil, Json.memberLen, hkey,
          List.length_singleton]
        omega
      have hdiv := Nat.lt_mul_div_succ (chunk sp.id item).dump.length (show 0 < block by decide)
      rw [write_room hopened hdisk (by omega)]
      simp only [block] at hdiv hroom
      omega
    · exact absurd hlong (not_le.2 hover)
    · have hblocks := length_blocks_div (chunk sp.id item).dump
      have hfew : (chunk sp.id item).dump.length / block ≤ 400 := by
        simp only [Limits.recordBytes] at hlong
        simp only [show block = 49152 from rfl]
        omega
      have hoffset : block * (blocks block (chunk sp.id item).dump).length < 2 ^ 64 := by
        have hle := Nat.mul_le_mul_left block (hblocks.trans (Nat.succ_le_succ hfew))
        have hsmall : block * 401 < 2 ^ 64 := by decide
        omega
      simp only [Limits.recordBytes] at hlong
      refine writeFragments_room (by omega) (by omega)
        (fun piece hpiece => (mem_blocks (by decide) hpiece).2) hid hopened hdisk ?_ ?_ ?_
      · omega
      · omega
      · rwa [Nat.zero_add]
  rw [add, if_neg (by simp [hstatus])]
  generalize sp.writeRecord env (chunk sp.id item) = r at hwrite
  obtain ⟨ok, sp'⟩ := r
  cases hwrite
  rfl

end Spool

end VppJson
