import VppJsonGateway.Transfer

/-!
# What upload transfers are for

The abstract model of one transfer: its data file, its manifest and the chunks accepted for it,
with no temporary files, no system calls and no text. `Transfer.Move` lists everything that can
happen to it; `Transfer.Sound` says that the data is what the accepted chunks put together, and
a committed transfer stays as it is until it expires.
-/

namespace VppJson

open Lib

/-- The chunks accepted for a transfer since it was begun, in the order they were accepted. -/
def accepted (stem : Bytes) : List Event → List (Nat × Bytes)
  | [] => []
  | .begun p :: log => if p = stem then [] else accepted stem log
  | .chunk p seq data :: log =>
    if p = stem then accepted stem log ++ [(seq, data)] else accepted stem log

/-- Events of one transfer do not count for another. -/
theorem accepted_append_of_ne {stem p : Bytes} (hp : p ≠ stem) {events log : List Event}
    (h : ∀ e ∈ events, e.stem = stem) : accepted p (events ++ log) = accepted p log := by
  induction events with
  | nil => rfl
  | cons e events ih =>
    have he : e.stem = stem := h e List.mem_cons_self
    have hne : e.stem ≠ p := fun h' => hp (h'.symm.trans he)
    have hrest := ih fun e' he' => h e' (List.mem_cons_of_mem _ he')
    cases e with
    | begun q => exact (if_neg hne).trans hrest
    | chunk q seq data => exact (if_neg hne).trans hrest

/-- The bounds of a stored manifest, under which its text is read back as it was written. -/
structure Manifest.Valid (m : Manifest) : Prop where
  session : Utf8.Valid m.session
  sha256 : Utf8.Valid m.sha256
  digest : m.sha256.length = 64
  lastHash : Utf8.Valid m.lastHash
  total : m.total ≤ Limits.uploadBytes
  bytes : m.bytes ≤ m.total
  nextSeq : m.nextSeq ≤ m.bytes
  expires : m.expires < 2 ^ 63

/-- The text of a stored manifest is one the JSON library reads back. -/
theorem Manifest.Valid.good {m : Manifest} (h : m.Valid) (strtod : Bytes → Option Double) :
    m.toJson.Good strtod := by
  have htotal := h.total
  have hbytes := h.bytes
  have hseq := h.nextSeq
  have hexpires := h.expires
  simp only [Limits.uploadBytes] at htotal
  refine Json.good_object ?_
  simp only [List.mem_cons, List.not_mem_nil, or_false, forall_eq_or_imp, forall_eq, Json.Good,
    and_true]
  exact ⟨⟨by decide, h.session⟩, ⟨by decide, by omega⟩, ⟨by decide, h.sha256⟩,
    ⟨by decide, by omega⟩, ⟨by decide, by omega⟩, ⟨by decide, h.lastHash⟩,
    ⟨by decide, by omega⟩, by decide⟩

/-- The members of a stored manifest are read back. -/
theorem Manifest.ofJson_toJson (m : Manifest) : Manifest.ofJson m.toJson.norm = some m := rfl

theorem Manifest.Valid.parse {m : Manifest} (h : m.Valid) (env : Env) :
    (Json.parse env.strtod m.toJson.dump).bind Manifest.ofJson = some m := by
  rw [Json.parse_dump (h.good env.strtod)]
  exact m.ofJson_toJson

/-- What a manifest says about the data file and the accepted chunks. -/
structure Manifest.Describes (hash : Bytes → Bytes) (m : Manifest) (data : Bytes)
    (chunks : List (Nat × Bytes)) : Prop where
  count : chunks.map Prod.fst = List.range m.nextSeq
  content : data.take m.bytes = (chunks.map Prod.snd).flatten
  lower : m.bytes ≤ data.length
  upper : data.length ≤ m.total
  committed : m.committed = true → m.bytes = m.total ∧ hash data = m.sha256

/-- A manifest that counts one more chunk. -/
def Manifest.counting (m : Manifest) (hash : Bytes → Bytes) (piece : Bytes) : Manifest :=
  { m with bytes := m.bytes + piece.length, nextSeq := m.nextSeq + 1, lastHash := hash piece }

/-- One transfer. -/
structure Transfer where
  data : Option Bytes
  manifest : Option Manifest
  chunks : List (Nat × Bytes)

namespace Transfer

/-- The invariant: a stored manifest describes its data file; only an expired transfer may have
lost it. -/
structure Sound (hash : Bytes → Bytes) (now : Nat) (t : Transfer) : Prop where
  valid : ∀ {m}, t.manifest = some m → m.Valid
  present : ∀ {m}, t.manifest = some m → t.data = none → m.expires ≤ now
  describes : ∀ {m d}, t.manifest = some m → t.data = some d → m.Describes hash d t.chunks

/-- Where a transfer moves: the digest and the clock, which new manifests the quotas admit, and
whether `Expire` may have lost a data file it could not remove. -/
structure Setting where
  hash : Bytes → Bytes
  now : Nat
  admits : Manifest → Prop
  lost : Prop

/-- Everything that can happen to a transfer. -/
inductive Move (w : Setting) : Transfer → Transfer → Prop
  /-- `transfer.begin` empties the data file, as long as there is no manifest. -/
  | reset {t : Transfer} (hm : t.manifest = none) : Move w t { t with data := some [] }
  /-- `transfer.begin` stores the first manifest. -/
  | begun {t : Transfer} {m : Manifest} (hm : t.manifest = none) (hd : t.data = some [])
      (hvalid : m.Valid) (hbytes : m.bytes = 0) (hseq : m.nextSeq = 0)
      (hopen : m.committed = false) (hroom : w.admits m) :
      Move w t { t with manifest := some m, chunks := [] }
  /-- `transfer.chunk` writes behind what the manifest counts. -/
  | write {t : Transfer} {m : Manifest} {d d' : Bytes} (hm : t.manifest = some m)
      (hopen : m.committed = false) (hd : t.data = some d)
      (hkeep : d'.take m.bytes = d.take m.bytes) (hlower : m.bytes ≤ d'.length)
      (hupper : d'.length ≤ m.total) :
      Move w t { t with data := some d' }
  /-- `transfer.chunk` stores a manifest that counts the chunk. -/
  | chunk {t : Transfer} {m : Manifest} {d piece : Bytes} (hm : t.manifest = some m)
      (hopen : m.committed = false) (hd : t.data = some d) (hpiece : piece ≠ [])
      (htail : d.drop m.bytes = piece) (htotal : m.bytes + piece.length ≤ m.total)
      (hhash : Utf8.Valid (w.hash piece)) :
      Move w t { t with manifest := some (m.counting w.hash piece)
                        chunks := t.chunks ++ [(m.nextSeq, piece)] }
  /-- `transfer.commit` seals a complete transfer. -/
  | commit {t : Transfer} {m : Manifest} {d : Bytes} (hm : t.manifest = some m)
      (hd : t.data = some d) (hfull : m.bytes = m.total) (hhash : w.hash d = m.sha256) :
      Move w t { t with manifest := some { m with committed := true } }
  /-- `Expire` removes the data of an expired transfer. -/
  | dropData {t : Transfer} {m : Manifest} (hm : t.manifest = some m)
      (hexpired : m.expires ≤ w.now) : Move w t { t with data := none }
  /-- `Expire` removes the manifest of an expired transfer, after its data. -/
  | dropManifest {t : Transfer} {m : Manifest} (hm : t.manifest = some m)
      (hexpired : m.expires ≤ w.now) (hgone : w.lost ∨ t.data = none) :
      Move w t { t with manifest := none }

section Moves

variable {hash : Bytes → Bytes} {now : Nat} {w : Setting} {t t' : Transfer}

/-- Time does not break the invariant. -/
theorem Sound.later {now' : Nat} (h : Sound hash now t) (hnow : now ≤ now') : Sound hash now' t :=
  { h with present := fun hm hd => (h.present hm hd).trans hnow }

/-- The manifest that counts a chunk, with the chunk in its place. -/
theorem describes_counting {m : Manifest} {d piece : Bytes} {chunks : List (Nat × Bytes)}
    (h : m.Describes hash d chunks) (hopen : m.committed = false) (htail : d.drop m.bytes = piece)
    (htotal : m.bytes + piece.length ≤ m.total) :
    (m.counting hash piece).Describes hash d (chunks ++ [(m.nextSeq, piece)]) := by
  have hlen : d.length = m.bytes + piece.length := by
    have hdrop := congrArg List.length htail
    have hlower := h.lower
    rw [List.length_drop] at hdrop
    omega
  have hall : d.take (m.bytes + piece.length) = d := List.take_of_length_le (by omega)
  refine ⟨?_, ?_, hlen.ge, hlen.le.trans htotal, ?_⟩
  · rw [List.map_append, h.count]
    exact List.range_succ.symm
  · have hsplit := List.take_append_drop m.bytes d
    rw [htail] at hsplit
    rw [List.map_append, List.flatten_append, ← h.content]
    simp only [List.map_cons, List.map_nil, List.flatten_cons, List.flatten_nil, List.append_nil]
    exact hall.trans hsplit.symm
  · intro hc
    rw [show (m.counting hash piece).committed = m.committed from rfl, hopen] at hc
    cases hc

/-- A move keeps the invariant. -/
theorem Move.sound (h : Move w t t') (ht : Sound w.hash w.now t) : Sound w.hash w.now t' := by
  cases h with
  | reset hm =>
    refine ⟨ht.valid, ?_, ?_⟩
    · intro m hm'
      rw [hm] at hm'
      cases hm'
    · intro m d hm'
      rw [hm] at hm'
      cases hm'
  | @begun m hm hd hvalid hbytes hseq hopen =>
    refine ⟨?_, ?_, ?_⟩
    · rintro _ ⟨⟩
      exact hvalid
    · intro _ _ hnone
      rw [hd] at hnone
      cases hnone
    · rintro _ d ⟨⟩ hd'
      obtain rfl : [] = d := Option.some.inj (hd.symm.trans hd')
      refine ⟨by simp [hseq], by simp, by simp [hbytes], by simp, ?_⟩
      intro hc
      rw [hopen] at hc
      cases hc
  | @write m d d' hm hopen hd hkeep hlower hupper =>
    refine ⟨ht.valid, ?_, ?_⟩
    · rintro _ _ ⟨⟩
    · rintro m' _ hm' ⟨⟩
      obtain rfl : m' = m := Option.some.inj (hm'.symm.trans hm)
      have hdesc := ht.describes hm hd
      refine ⟨hdesc.count, hkeep.trans hdesc.content, hlower, hupper, ?_⟩
      intro hc
      rw [hopen] at hc
      cases hc
  | @chunk m d piece hm hopen hd hpiece htail htotal hhash =>
    have hvalid := ht.valid hm
    have hpos : 0 < piece.length := List.length_pos_iff.2 hpiece
    refine ⟨?_, ?_, ?_⟩
    · rintro _ ⟨⟩
      exact { hvalid with
        lastHash := hhash
        bytes := htotal
        nextSeq := Nat.add_le_add hvalid.nextSeq hpos }
    · intro _ _ hnone
      rw [hd] at hnone
      cases hnone
    · rintro _ d' ⟨⟩ hd'
      obtain rfl : d = d' := Option.some.inj (hd.symm.trans hd')
      exact describes_counting (ht.describes hm hd) hopen htail htotal
  | @commit m d hm hd hfull hhash =>
    refine ⟨?_, ?_, ?_⟩
    · rintro _ ⟨⟩
      exact { ht.valid hm with }
    · intro _ _ hnone
      rw [hd] at hnone
      cases hnone
    · rintro _ d' ⟨⟩ hd'
      obtain rfl : d = d' := Option.some.inj (hd.symm.trans hd')
      exact { ht.describes hm hd with committed := fun _ => ⟨hfull, hhash⟩ }
  | @dropData m hm hexpired =>
    refine ⟨ht.valid, ?_, ?_⟩
    · intro m' hm' _
      exact Option.some.inj (hm.symm.trans hm') ▸ hexpired
    · rintro _ _ _ ⟨⟩
  | @dropManifest m hm hexpired =>
    refine ⟨?_, ?_, ?_⟩
    · rintro _ ⟨⟩
    · rintro _ ⟨⟩
    · rintro _ _ ⟨⟩

/-- A committed transfer that has not expired is left as it is. -/
theorem Move.keeps (h : Move w t t') {m : Manifest} (hm : t.manifest = some m)
    (hcommitted : m.committed = true) (hnow : w.now < m.expires) :
    t'.manifest = some m ∧ t'.data = t.data := by
  have key : ∀ {m' : Manifest}, t.manifest = some m' → m' = m := fun h' =>
    Option.some.inj (h'.symm.trans hm)
  cases h with
  | reset hm' => rw [hm'] at hm; cases hm
  | begun hm' => rw [hm'] at hm; cases hm
  | write hm' hopen =>
    rw [key hm', hcommitted] at hopen
    cases hopen
  | chunk hm' hopen =>
    rw [key hm', hcommitted] at hopen
    cases hopen
  | @commit m' d hm' =>
    obtain rfl := key hm'
    refine ⟨?_, rfl⟩
    rw [← hcommitted]
  | dropData hm' hexpired =>
    rw [key hm'] at hexpired
    omega
  | dropManifest hm' hexpired =>
    rw [key hm'] at hexpired
    omega

end Moves

end Transfer

end VppJson
