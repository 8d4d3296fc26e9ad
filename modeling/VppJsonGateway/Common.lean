import VppJsonGateway.Lib.JsonParse

/-!
# Shared definitions of the gateway

`src/src/common.h` and `src/src/common.cc` up to the request envelope: statuses, limits,
identifiers, the nesting guard and `ParseRequest`. What the program takes from other packages
and has no source here is a field of `Env`.
-/

namespace VppJson

open Lib

/-- Functions of the packages the gateway links: the C library's `strtod`, through which the
JSON parser reads numbers that are no 64-bit integers, and OpenSSL's SHA-256. -/
structure Env where
  strtod : Bytes → Option Double
  digest : Bytes → { d : Bytes // d.length = 32 }

/-- `Hex`. -/
def hex (data : Bytes) : Bytes :=
  data.flatMap fun b => [hexByte (b.toNat / 16), hexByte (b.toNat % 16)]

/-- `Sha256`. -/
def Env.sha256 (env : Env) (data : Bytes) : Bytes := hex (env.digest data).1

theorem length_zeros : (List.replicate 32 (0 : UInt8)).length = 32 := List.length_replicate

/-- An environment for runs that read no floating-point number and compare no digests. -/
def Env.plain : Env := ⟨fun _ => none, fun _ => ⟨List.replicate 32 0, length_zeros⟩⟩

/-- `Status`: an empty code is success. -/
structure Status where
  code : Bytes := []
  message : Bytes := []
  deriving DecidableEq

/-- `Status::ok`. -/
def Status.ok (s : Status) : Bool := s.code.isEmpty

/-! ## Limits -/

namespace Limits

/-- `kFrameBytes`. -/
def frameBytes : Nat := 256 * 1024
/-- `kRecordBytes`. -/
def recordBytes : Nat := 16 * 1024 * 1024
/-- `kParamsBytes`. -/
def paramsBytes : Nat := 16 * 1024 * 1024
/-- `kNativePayloadBytes`. -/
def nativePayloadBytes : Nat := 1024 * 1024
/-- `kSpoolBytes`. -/
def spoolBytes : Nat := 64 * 1024 * 1024
/-- `kUploadBytes`. -/
def uploadBytes : Nat := 64 * 1024 * 1024
/-- `kWindow`. -/
def window : Nat := 32
/-- `kSessions`. -/
def sessions : Nat := 32
/-- `kJobsPerSession`. -/
def jobsPerSession : Nat := 128
/-- `kLeaseSeconds`. -/
def leaseSeconds : Nat := 3600

end Limits

/-! ## Identifiers and numbers -/

/-- The characters `IsId` allows. -/
def isIdByte (c : UInt8) : Bool :=
  (97 ≤ c.toNat ∧ c.toNat ≤ 122) ∨ (65 ≤ c.toNat ∧ c.toNat ≤ 90) ∨
    (48 ≤ c.toNat ∧ c.toNat ≤ 57) ∨ c = 45 ∨ c = 95

/-- `IsId` on the text of a string value. -/
def isIdText (text : Bytes) : Bool :=
  !text.isEmpty && decide (text.length ≤ 96) && text.all isIdByte

/-- `IsId`. -/
def isId : Json → Bool
  | .str text => isIdText text
  | _ => false

/-- `IsUnsigned`. -/
def isUnsigned (value : Json) (maximum : Nat) : Bool :=
  match value with
  | .uint n => n ≤ maximum
  | _ => false

/-- Every octet takes two digits. -/
theorem length_hex (data : Bytes) : (hex data).length = 2 * data.length := by
  induction data with
  | nil => rfl
  | cons b data ih =>
    rw [hex, List.flatMap_cons, List.length_append, ← hex, ih, List.length_cons]
    change 2 + 2 * data.length = 2 * (data.length + 1)
    omega

/-- A hexadecimal text is printable ASCII. -/
theorem mem_hex {data : Bytes} {c : UInt8} (h : c ∈ hex data) :
    0x20 ≤ c ∧ c ≤ 0x7F ∧ c ≠ 34 ∧ c ≠ 92 := by
  have hdigit : ∀ d, d < 16 → 0x20 ≤ hexByte d ∧ hexByte d ≤ 0x7F ∧ hexByte d ≠ 34 ∧
      hexByte d ≠ 92 := by decide
  simp only [hex, List.mem_flatMap, List.mem_cons, List.not_mem_nil, or_false] at h
  obtain ⟨b, -, rfl | rfl⟩ := h
  · have := b.toNat_lt
    exact hdigit _ (by omega)
  · exact hdigit _ (by omega)

/-- An identifier's text is printable ASCII. -/
theorem mem_isIdText {text : Bytes} (h : isIdText text = true) {c : UInt8} (hc : c ∈ text) :
    0x20 ≤ c ∧ c ≤ 0x7F ∧ c ≠ 34 ∧ c ≠ 92 := by
  simp only [isIdText, Bool.and_eq_true, List.all_eq_true] at h
  have hb := h.2 c hc
  simp only [isIdByte, decide_eq_true_eq] at hb
  have hrange : 0x20 ≤ c.toNat ∧ c.toNat ≤ 0x7F ∧ c.toNat ≠ 34 ∧ c.toNat ≠ 92 := by
    rcases hb with hb | hb | hb | rfl | rfl
    · omega
    · omega
    · omega
    · decide
    · decide
  refine ⟨UInt8.le_iff_toNat_le.2 hrange.1, UInt8.le_iff_toNat_le.2 hrange.2.1, ?_, ?_⟩
  · rintro rfl; exact hrange.2.2.1 rfl
  · rintro rfl; exact hrange.2.2.2 rfl

/-- A hexadecimal text is valid. -/
theorem valid_hex (data : Bytes) : Utf8.Valid (hex data) :=
  Utf8.valid_of_ascii fun _ h => (mem_hex h).2.1

/-- So is an ID. -/
theorem valid_of_isIdText {text : Bytes} (h : isIdText text = true) : Utf8.Valid text :=
  Utf8.valid_of_ascii fun _ hc => (mem_isIdText h hc).2.1

/-! ## The nesting guard -/

/-- The locals of `CheckNesting`. -/
structure Nesting where
  depth : Int := 0
  quoted : Bool := false
  escaped : Bool := false
  deriving DecidableEq

/-- One character of `CheckNesting`; none where the limit is exceeded. -/
def Nesting.step (s : Nesting) (c : UInt8) : Option Nesting :=
  if s.quoted then
    if s.escaped then some { s with escaped := false }
    else if c = 92 then some { s with escaped := true }
    else if c = 34 then some { s with quoted := false }
    else some s
  else if c = 34 then some { s with quoted := true }
  else if c = 123 ∨ c = 91 then
    if s.depth + 1 > 32 then none else some { s with depth := s.depth + 1 }
  else if c = 125 ∨ c = 93 then some { s with depth := s.depth - 1 }
  else some s

/-- The scan of `CheckNesting` over a text. -/
def Nesting.run : Nesting → Bytes → Option Nesting
  | s, [] => some s
  | s, c :: text => (s.step c).bind (·.run text)

/-- `CheckNesting`. -/
def checkNesting (text : Bytes) : Status :=
  match Nesting.run {} text with
  | some _ => {}
  | none => ⟨"invalid_request", "Nesting limit exceeded"⟩

/-! ## Envelopes -/

/-- `ParseRequest`: the request, or the status that refuses it. -/
def parseRequest (env : Env) (text : Bytes) (limit : Nat := Limits.frameBytes) :
    Except Status Json :=
  if text.length > limit then
    .error ⟨"frame_too_large", "Use transfer.begin/chunk/commit"⟩
  else if !(checkNesting text).ok then .error (checkNesting text)
  else
    match Json.parse env.strtod text with
    | some (.obj m) =>
      let request := Json.obj m
      if !(request.get? "id").any isId || (request.get? "method").all (·.str?.isNone)
          || (request.get? "params").any (!·.isObject)
          || (request.get? "params_ref").any (!isId ·) then
        .error ⟨"invalid_request", "Expected id, symbolic method, and object params"⟩
      else if request.contains "params" && request.contains "params_ref" then
        .error ⟨"invalid_request", "Use params or params_ref, not both"⟩
      else if m.any fun kv => kv.1 ∉ [utf8 "id", utf8 "method", utf8 "params", utf8 "params_ref"] then
        .error ⟨"invalid_request", "Unknown envelope field"⟩
      else .ok request
    | _ => .error ⟨"invalid_request", "Expected id, symbolic method, and object params"⟩

/-- `Error`. -/
def error (id : Bytes) (status : Status) : Json :=
  Json.object [("id", .str id), ("type", .str "error"),
    ("error", Json.object [("code", .str status.code), ("message", .str status.message)])]

/-- `Result`. -/
def result (id : Bytes) (value : Json) : Json :=
  Json.object [("id", .str id), ("type", .str "result"), ("result", value)]

end VppJson
