import VppJsonGateway.Assembler

/-!
# What an assembler makes of untrusted frames

`Accept` changes its members before it has made all its checks, so a refused frame may leave a
record open. `Observed` follows an assembler over any frames, together with the frames it accepted
since it last reported one ready. Its invariant (`Open`) says what those frames have to do with
the members; a logical frame built from fragments is then what one record of contiguous fragments
says, and nothing else.
-/

namespace VppJson.Assembler

open Lib

/-- The octets of fragments that follow one another from an offset on. -/
def Covers : Nat → List Fragment → Bytes → Prop
  | _, [], data => data = []
  | offset, f :: fs, data => f.offset = offset ∧
      ∃ piece rest, decode f.data = some piece ∧ data = piece ++ rest ∧
        Covers (offset + piece.length) fs rest

/-- The frames are fragments, and `fs` is what they carry. -/
def Carry (frames : List Json) (fs : List Fragment) : Prop :=
  List.Forall₂ (fun frame f => (frame.get? "type").bind Json.str? = some (utf8 "fragment") ∧
    fragment? frame = some f) frames fs

/-- The fragments belong to the record with this identity. -/
def Common (id digest : Bytes) (total record : Nat) (fs : List Fragment) : Prop :=
  ∀ f ∈ fs, f.id = id ∧ f.digest = digest ∧ f.total = total ∧ f.record = record

/-- The logical frame of a record in fragments: its octets have the declared length and digest,
they parse to an object with the id of the record and one of the types that are fragmented, and
the frame is that object with the number of the last fragment. -/
def Assembled (env : Env) (fs : List Fragment) (logical : Json) : Prop :=
  ∃ id digest total record data m last, Common id digest total record fs ∧
    Covers 0 fs data ∧ data.length = total ∧ env.sha256 data = digest ∧
    Json.parse env.strtod data = some (.obj m) ∧ (Json.obj m).get? "id" = some (.str id) ∧
    (∃ t, (Json.obj m).get? "type" = some (.str t) ∧
      (t = utf8 "chunk" ∨ t = utf8 "result" ∨ t = utf8 "error")) ∧
    fs.getLast? = some last ∧ logical = (Json.obj m).set "seq" (.uint last.seq)

/-- The members are those of no record, or of one within the limit that is not overfull. -/
def Bounded (a : Assembler) : Prop :=
  a.total = 0 ∧ a.data = [] ∨
    0 < a.total ∧ a.total ≤ Limits.recordBytes ∧ a.data.length ≤ a.total

/-- An assembler and the frames it accepted since it last reported one ready. -/
structure Observed where
  assembler : Assembler := {}
  pending : List Json := []

/-- One call of `Accept`. -/
def Observed.accept (env : Env) (o : Observed) (frame : Json) : Observed :=
  match o.assembler.accept env frame with
  | (_, some _, a) => ⟨a, []⟩
  | (status, none, a) => ⟨a, if status.ok then o.pending ++ [frame] else o.pending⟩

/-- Calls of `Accept` on any frames, whatever each returned. -/
def Observed.acceptAll (env : Env) (frames : List Json) : Observed :=
  frames.foldl (Observed.accept env) {}

/-- The invariant: no record is open and no frame is pending; or the pending frames are the
fragments the open record holds; or the record is whole and was refused, and then no fragment can
be accepted any more. -/
inductive Open (o : Observed) : Prop
  | idle (total : o.assembler.total = 0) (data : o.assembler.data = []) (pending : o.pending = [])
  | partly (fs : List Fragment) (carry : Carry o.pending fs)
      (common : Common o.assembler.id o.assembler.digest o.assembler.total o.assembler.record fs)
      (covers : Covers 0 fs o.assembler.data) (pos : 0 < o.assembler.total)
      (le : o.assembler.total ≤ Limits.recordBytes)
      (lt : o.assembler.data.length < o.assembler.total)
  | refused (pos : 0 < o.assembler.total) (le : o.assembler.total ≤ Limits.recordBytes)
      (whole : o.assembler.data.length = o.assembler.total)

/-- What is pending keeps within its bounds. -/
theorem Open.bounded {o : Observed} (h : Open o) : o.assembler.Bounded := by
  cases h with
  | idle total data _ => exact .inl ⟨total, data⟩
  | partly fs _ _ _ pos le lt => exact .inr ⟨pos, le, lt.le⟩
  | refused pos le whole => exact .inr ⟨pos, le, whole.le⟩

/-- The next fragment begins where the last one ends. -/
theorem Covers.append {fs : List Fragment} {f : Fragment} {data piece : Bytes}
    (hf : decode f.data = some piece) :
    ∀ {offset : Nat}, Covers offset fs data → f.offset = offset + data.length →
      Covers offset (fs ++ [f]) (data ++ piece) := by
  induction fs generalizing data with
  | nil =>
    intro offset h ho
    rw [show data = [] from h, List.length_nil, Nat.add_zero] at ho
    rw [show data = [] from h]
    exact ⟨ho, piece, [], hf, by simp, rfl⟩
  | cons g fs ih =>
    intro offset h ho
    obtain ⟨hg, p, rest, hp, rfl, hrest⟩ := h
    refine ⟨hg, p, rest ++ piece, hp, by simp, ih hrest ?_⟩
    rw [ho, List.length_append]
    omega

/-- It belongs to the same record. -/
theorem Common.append {id digest : Bytes} {total record : Nat} {fs : List Fragment} {f : Fragment}
    (h : Common id digest total record fs)
    (hf : f.id = id ∧ f.digest = digest ∧ f.total = total ∧ f.record = record) :
    Common id digest total record (fs ++ [f]) := by
  intro g hg
  rcases List.mem_append.1 hg with hg | hg
  · exact h g hg
  · rw [List.mem_singleton.1 hg]
    exact hf

/-- It came in a frame of its own. -/
theorem Carry.append {frames : List Json} {fs : List Fragment} {frame : Json} {f : Fragment}
    (h : Carry frames fs) (ht : (frame.get? "type").bind Json.str? = some (utf8 "fragment"))
    (hf : fragment? frame = some f) : Carry (frames ++ [frame]) (fs ++ [f]) :=
  List.rel_append h (.cons ⟨ht, hf⟩ .nil)

/-- What a whole record that passes the checks says. -/
theorem logical?_eq_some {env : Env} {a : Assembler} {seq : Nat} {logical : Json}
    (h : a.logical? env seq = some logical) :
    env.sha256 a.data = a.digest ∧ ∃ m, Json.parse env.strtod a.data = some (.obj m) ∧
      (Json.obj m).get? "id" = some (.str a.id) ∧
      (∃ t, (Json.obj m).get? "type" = some (.str t) ∧
        (t = utf8 "chunk" ∨ t = utf8 "result" ∨ t = utf8 "error")) ∧
      logical = (Json.obj m).set "seq" (.uint seq) := by
  have hstr : ∀ {j : Json} {s : Bytes}, j.str? = some s → j = .str s := by
    intro j s hj
    cases j <;> cases hj
    rfl
  unfold logical? at h
  split at h
  · cases h
  · next hdigest =>
    split at h
    · cases h
    · split at h
      · next m hm =>
        dsimp only at h
        split at h
        · next hid =>
          split at h
          · next htype =>
            cases h
            obtain ⟨i, hi, hid⟩ := (Option.any_eq_true _ _).1 hid
            obtain ⟨t, ht, htype⟩ := (Option.any_eq_true _ _).1 htype
            rw [decide_eq_true_eq] at hid htype
            refine ⟨not_not.1 hdigest, m, hm, by rw [hi, hstr hid], ?_, rfl⟩
            rcases htype with h | h | h
            · exact ⟨_, by rw [ht, hstr h], .inl rfl⟩
            · exact ⟨_, by rw [ht, hstr h], .inr (.inl rfl)⟩
            · exact ⟨_, by rw [ht, hstr h], .inr (.inr rfl)⟩
          · cases h
        · cases h
      · cases h

/-- What one call has to do with the invariant: it keeps it where nothing is ready, and otherwise
the frames since the last ready one, with this one, make up the logical frame. -/
def Keeps (env : Env) (pending : List Json) (frame : Json) (r : Status × Option Json × Assembler) :
    Prop :=
  match r with
  | (status, none, a) => Open ⟨a, if status.ok then pending ++ [frame] else pending⟩
  | (_, some logical, a) => a.total = 0 ∧ a.data = [] ∧
      ∃ fs, Carry (pending ++ [frame]) fs ∧ Assembled env fs logical

/-- A frame that is refused changes nothing. -/
theorem keeps_invalid {env : Env} {pending : List Json} {frame : Json} {a : Assembler}
    (h : Open ⟨a, pending⟩) : Keeps env pending frame (invalid, none, a) := h

/-- A record is noted before the rest of its first fragment is checked. -/
theorem Open.note {a : Assembler} {pending : List Json} {f : Fragment} (h : Open ⟨a, pending⟩)
    (hpos : f.total ≠ 0) (hle : f.total ≤ Limits.recordBytes) :
    Open ⟨if a.total = 0 then
      { a with total := f.total, record := f.record, id := f.id, digest := f.digest } else a,
      pending⟩ := by
  split
  · next h0 =>
    cases h with
    | idle total data hpending =>
      dsimp only at data hpending
      subst hpending
      refine .partly [] .nil (fun f hf => by cases hf) data (Nat.pos_of_ne_zero hpos) hle ?_
      dsimp only
      rw [data]
      exact Nat.pos_of_ne_zero hpos
    | partly _ _ _ _ pos => exact absurd h0 pos.ne'
    | refused pos => exact absurd h0 pos.ne'
  · exact h

/-- A fragment is refused, waited on, or completes its record. -/
theorem keeps_acceptFragment (env : Env) {a : Assembler} {pending : List Json} {frame : Json}
    {f : Fragment} (h : Open ⟨a, pending⟩)
    (htype : (frame.get? "type").bind Json.str? = some (utf8 "fragment"))
    (hf : fragment? frame = some f) : Keeps env pending frame (a.acceptFragment env f) := by
  unfold acceptFragment
  split
  · exact keeps_invalid h
  · next hshape =>
    simp only [not_or, not_lt] at hshape
    split
    · exact keeps_invalid h
    · have h' := h.note (f := f) hshape.1 hshape.2.1
      revert h'
      generalize (if a.total = 0 then
        ({ a with total := f.total, record := f.record, id := f.id, digest := f.digest } : Assembler)
        else a) = b
      intro h'
      dsimp only
      split
      · exact keeps_invalid h'
      · next hsame =>
        simp only [not_or, not_not] at hsame
        obtain ⟨hoffset, htotal, hrecord, hid, hdigest⟩ := hsame
        split
        · exact keeps_invalid h'
        · next piece hpiece =>
          split
          · exact keeps_invalid h'
          · next hfits =>
            simp only [not_or, not_lt] at hfits
            have hlen : 0 < piece.length := List.length_pos_iff.2 hfits.1
            cases h' with
            | idle total data hpending =>
              dsimp only at total
              omega
            | refused pos le whole =>
              dsimp only at whole
              omega
            | partly fs carry common covers pos le lt =>
              dsimp only at common covers pos le lt carry
              have hcarry := carry.append htype hf
              have hcommon := common.append ⟨hid, hdigest, htotal, hrecord⟩
              have hcovers := covers.append hpiece (by omega)
              split
              · next hpart =>
                simp only [List.length_append] at hpart
                refine .partly _ hcarry hcommon hcovers pos le ?_
                simp only [List.length_append]
                omega
              · next hwhole =>
                split
                · exact .refused pos le (not_not.1 hwhole)
                · next logical hlogical =>
                  obtain ⟨hsha, m, hm, hidm, htypem, rfl⟩ := logical?_eq_some hlogical
                  refine ⟨rfl, rfl, fs ++ [f], hcarry, ⟨b.id, b.digest, b.total, b.record, _, m, f,
                    hcommon, hcovers, not_not.1 hwhole, hsha, hm, hidm, htypem, by simp, rfl⟩⟩

/-- What a call of `Accept` does: it refuses the frame, hands on one that is no fragment, or
looks at a fragment. -/
theorem accept_cases (env : Env) (a : Assembler) (frame : Json) :
    a.accept env frame = (invalid, none, a) ∨
    (frame.get? "type").bind Json.str? ≠ some (utf8 "fragment") ∧
      a.accept env frame = ({}, some frame, { a with data := [], total := 0 }) ∨
    (frame.get? "type").bind Json.str? = some (utf8 "fragment") ∧
      ∃ f, fragment? frame = some f ∧ a.accept env frame = a.acceptFragment env f := by
  unfold accept
  split
  · next type _ htype _ =>
    split
    · next hne =>
      split
      · exact .inl rfl
      · refine .inr (.inl ⟨?_, rfl⟩)
        rw [htype]
        exact fun h => hne (Option.some.inj h)
    · next heq =>
      rw [not_not] at heq
      split
      · exact .inl rfl
      · next f hf => exact .inr (.inr ⟨by rw [htype, heq], f, hf, rfl⟩)
  · exact .inl rfl

/-- One call keeps the invariant. -/
theorem Open.accept {env : Env} {o : Observed} (h : Open o) (frame : Json) :
    Open (o.accept env frame) := by
  unfold Observed.accept
  rcases accept_cases env o.assembler frame with hr | ⟨-, hr⟩ | ⟨htype, f, hf, hr⟩
  · rw [hr]
    exact h
  · rw [hr]
    exact .idle rfl rfl rfl
  · rw [hr]
    have hkeeps := keeps_acceptFragment env h htype hf
    revert hkeeps
    generalize o.assembler.acceptFragment env f = r
    intro hkeeps
    obtain ⟨status, ready, a⟩ := r
    cases ready with
    | none => exact hkeeps
    | some logical => exact .idle hkeeps.1 hkeeps.2.1 rfl

/-- The invariant holds after any calls. -/
theorem open_acceptAll (env : Env) (frames : List Json) : Open (Observed.acceptAll env frames) := by
  have hrun : ∀ o : Observed, Open o → Open (frames.foldl (Observed.accept env) o) := by
    induction frames with
    | nil => exact fun o h => h
    | cons frame frames ih => exact fun o h => ih _ (h.accept frame)
  exact hrun {} (.idle rfl rfl rfl)

/-- **Integrity of reassembly.** After any frames the members are bounded, so that the room left
in a record is never negative; and a logical frame that a fragment makes ready is assembled from
the frames accepted since the last ready one, all of them fragments of one record. -/
theorem accept_integrity (env : Env) (frames : List Json) :
    (Observed.acceptAll env frames).assembler.Bounded ∧
    ∀ frame logical status a,
      (frame.get? "type").bind Json.str? = some (utf8 "fragment") →
      (Observed.acceptAll env frames).assembler.accept env frame = (status, some logical, a) →
      ∃ fs, Carry ((Observed.acceptAll env frames).pending ++ [frame]) fs ∧
        Assembled env fs logical := by
  have hopen := open_acceptAll env frames
  generalize Observed.acceptAll env frames = o at hopen ⊢
  refine ⟨hopen.bounded, fun frame logical status a htype haccept => ?_⟩
  rcases accept_cases env o.assembler frame with hr | ⟨hne, -⟩ | ⟨-, f, hf, hr⟩
  · rw [hr] at haccept
    cases haccept
  · exact absurd htype hne
  · have hkeeps := keeps_acceptFragment env hopen htype hf
    rw [← hr, haccept] at hkeeps
    exact hkeeps.2.2

/-- A fragment of a result of 26 octets, for an environment whose digests are zero. -/
def sampleFragment (seq offset : Nat) (piece : Bytes) : Json :=
  (Spool.fragment "r" (hex (List.replicate 32 0)) 0 26 offset piece).set "seq" (.uint seq)

@[inherit_doc sampleFragment] def firstFragment : Json := sampleFragment 0 0 "\x7b\"id\":\"r\","
@[inherit_doc sampleFragment] def lastFragment : Json := sampleFragment 1 10 "\"type\":\"result\"\x7d"

/-- A result in two fragments, after a frame that is refused. -/
theorem accept_integrity_two_fragments :
    ∃ fs logical, Carry [firstFragment, lastFragment] fs ∧ Assembled Env.plain fs logical := by
  have hready : ((Observed.acceptAll Env.plain [.null, firstFragment]).assembler.accept Env.plain
      lastFragment).2.1.isSome = true := by
    decide +kernel
  obtain ⟨logical, hlogical⟩ := Option.isSome_iff_exists.1 hready
  have hpending : (Observed.acceptAll Env.plain [.null, firstFragment]).pending = [firstFragment] := by
    rfl
  obtain ⟨fs, hfs⟩ := (accept_integrity Env.plain [.null, firstFragment]).2 _ logical _ _
    (by decide +kernel) (Prod.ext rfl (Prod.ext hlogical rfl))
  rw [hpending] at hfs
  exact ⟨fs, logical, hfs⟩

end VppJson.Assembler
