import VppJsonGateway.GatewayInvariant
import VppJsonGateway.ReplySize

/-!
# Restarts of a recovery that is cut off

`Recover` of `src/src/main.cc` gives every job that was running, and every job that is done and
whose response is missing, a response of its own: the error `outcome_unknown`. A process may end
at any point of it, also within `Spool::Single`, where the file is left as a disk leaves it that
fails there, and the next process starts `Recover` again.

For a running job nothing is lost: its row says so until the response is there. For a job that is
done the missing file is all there is to see, and `Spool` creates the file before it writes. What
is proved is that the journal and the files are in the end those of one recovery that was not cut
off, if no process ends between the creation of such a file and the update of its row.
-/

namespace VppJson

open Lib

namespace Gateway

/-! ## What a recovery does -/

/-- What happens outside of the journal and the spool directory. -/
def Elsewhere (g t : Gateway) : Prop := t.jobs = g.jobs ∧ t.spool = g.spool

/-- The journal as the gateway writes it: the primary key of `jobs`, and spool files that are named
after their requests, where SHA-256 has no collision on the requests of the journal. -/
structure Filed (g : Gateway) : Prop where
  keys : (g.jobs.map fun j => (j.sid, j.id)).Nodup
  paths : (g.jobs.map (·.path)).Nodup
  named : ∀ j ∈ g.jobs, isIdText j.id = true

/-- The status of a job that was interrupted. -/
def interrupted : Status :=
  ⟨"outcome_unknown", "Gateway interrupted; do not automatically repeat mutations"⟩

/-- The response of a job that was interrupted: one frame. -/
def mendedFile (id : Bytes) : Bytes :=
  ((error id interrupted).set "seq" (.uint 0)).dump ++ [10]

/-- The row of a job that was interrupted, once it has that response. -/
def mended (j : Job) : Job :=
  { j with state := .done, size := (mendedFile j.id).length, offset := 0 }

/-- A job that `Recover` has to mend: it is running, or it is done and its response is missing. -/
def Broken (g : Gateway) (j : Job) : Prop :=
  j.state = .running ∨ j.state = .done ∧ j.path ∉ g.spool

instance (g : Gateway) (j : Job) : Decidable (Broken g j) :=
  inferInstanceAs (Decidable (j.state = .running ∨ j.state = .done ∧ j.path ∉ g.spool))

/-- A part of a recovery, which ends anywhere. -/
def Attempt (site : Site) (g t : Gateway) : Prop := ∃ q, (recover site).Goes Elsewhere g q t

/-- The part of a recovery is not cut off within the repair of a job that is done: where the file of
such a job was missing and is there, the row describes it. -/
def Clean (g t : Gateway) : Prop :=
  ∀ j ∈ g.jobs, j.state = .done → j.path ∉ g.spool → j ∈ t.jobs → j.path ∈ t.spool →
    j = mended j ∧ t.spool.lookup j.path = some (mendedFile j.id)

/-- Recoveries that are cut off one after the other, none of them within the repair of a job that
is done. -/
def Restarts (site : Site) : Gateway → Gateway → Prop :=
  Relation.ReflTransGen fun g t => Attempt site g t ∧ Clean g t

section

variable {g s t : Gateway} {f : Job → Job} {j : Job}

theorem Elsewhere.refl (g : Gateway) : Elsewhere g g := ⟨rfl, rfl⟩

theorem Elsewhere.trans {u : Gateway} (h : Elsewhere g t) (h' : Elsewhere t u) : Elsewhere g u :=
  ⟨h'.1.trans h.1, h'.2.trans h.2⟩

/-! ## Between two recoveries -/

/-- A job that is mended. -/
def Whole (t : Gateway) (f : Job → Job) (j : Job) : Prop :=
  f j = mended j ∧ t.spool.lookup j.path = some (mendedFile j.id)

/-- The journal and the files while recoveries go on that began at `g`: `f` gives the rows. A row of
a broken job is as it was until the job is mended; nothing else changes. -/
structure Mending (g t : Gateway) (f : Job → Job) : Prop where
  jobs : t.jobs = g.jobs.map f
  broken : ∀ j ∈ g.jobs, Broken g j → f j = j ∨ Whole t f j
  sound : ∀ j ∈ g.jobs, ¬ Broken g j → f j = j ∧ t.spool.lookup j.path = g.spool.lookup j.path
  others : ∀ p ∉ g.jobs.map (·.path), t.spool.lookup p = g.spool.lookup p

/-- The broken jobs that `Recover` still recognizes. -/
def Seen (g t : Gateway) (f : Job → Job) : Prop :=
  ∀ j ∈ g.jobs, Broken g j → Whole t f j ∨ j.state = .running ∨ j.path ∉ t.spool

/-- The journal and the files go on as above, and what is mended stays so. -/
def Advances (g s t : Gateway) : Prop :=
  ∀ f, Mending g s f → ∃ f', Mending g t f' ∧ ∀ j ∈ g.jobs, Broken g j → Whole s f j → Whole t f' j

theorem Advances.refl (s : Gateway) : Advances g s s := fun f h => ⟨f, h, fun _ _ _ hw => hw⟩

theorem Advances.trans {u : Gateway} (h : Advances g s t) (h' : Advances g t u) :
    Advances g s u := by
  intro f hf
  obtain ⟨f', hf', hkeep⟩ := h f hf
  obtain ⟨f'', hf'', hkeep'⟩ := h' f' hf'
  exact ⟨f'', hf'', fun j hj hb hw => hkeep' j hj hb (hkeep j hj hb hw)⟩

/-- What happens elsewhere leaves the rows mended. -/
theorem Mending.elsewhere (h : Mending g s f) (he : Elsewhere s t) : Mending g t f := by
  obtain ⟨hjobs, hbroken, hsound, hothers⟩ := h
  unfold Whole at hbroken
  rw [← he.2] at hbroken hsound hothers
  exact ⟨he.1.trans hjobs, hbroken, hsound, hothers⟩

/-- Recovery only adds files. -/
theorem Elsewhere.advances (h : Elsewhere s t) : Advances g s t := by
  refine fun f hf => ⟨f, hf.elsewhere h, fun j _ _ hw => ?_⟩
  rwa [Whole, h.2]

theorem Mending.refl (g : Gateway) : Mending g g id :=
  ⟨(List.map_id _).symm, fun _ _ _ => .inl rfl, fun _ _ _ => ⟨rfl, rfl⟩, fun _ _ => rfl⟩

/-- The keys of the rows and their files stay. -/
theorem Mending.same (h : Mending g t f) (hj : j ∈ g.jobs) :
    (f j).sid = j.sid ∧ (f j).id = j.id ∧ (f j).path = j.path := by
  by_cases hb : Broken g j
  · rcases h.broken j hj hb with heq | ⟨heq, -⟩
    · rw [heq]
      exact ⟨rfl, rfl, rfl⟩
    · rw [heq]
      exact ⟨rfl, rfl, rfl⟩
  · rw [(h.sound j hj hb).1]
    exact ⟨rfl, rfl, rfl⟩

/-- The rows are in the journal. -/
theorem Mending.unique (h : Mending g t f) {f' : Job → Job} (h' : Mending g t f') (hj : j ∈ g.jobs) :
    f' j = f j :=
  List.map_inj_left.1 (h'.jobs.symm.trans h.jobs) j hj

/-- A file is written in place of one that a broken job misses. -/
theorem Mending.insert (hg : Filed g) (h : Mending g t f) (hj : j ∈ g.jobs) (hb : Broken g j)
    (hrow : f j = j) (file : Bytes) :
    Mending g { t with spool := t.spool.insert j.path file } f ∧
      ∀ i ∈ g.jobs, i ≠ j → ({ t with spool := t.spool.insert j.path file } : Gateway).spool.lookup
        i.path = t.spool.lookup i.path := by
  have hother : ∀ i ∈ g.jobs, i ≠ j →
      (t.spool.insert j.path file).lookup i.path = t.spool.lookup i.path := by
    intro i hi hne
    refine AList.lookup_insert_ne fun heq => hne ?_
    exact List.inj_on_of_nodup_map hg.paths hi hj heq
  refine ⟨⟨h.jobs, fun i hi hbi => ?_, fun i hi hbi => ?_, fun p hp => ?_⟩, hother⟩
  · by_cases hij : i = j
    · exact .inl (hij ▸ hrow)
    · refine (h.broken i hi hbi).imp_right fun hw => ⟨hw.1, (hother i hi hij).trans hw.2⟩
  · have hij : i ≠ j := fun hij => hbi (hij ▸ hb)
    exact ⟨(h.sound i hi hbi).1, (hother i hi hij).trans (h.sound i hi hbi).2⟩
  · refine (AList.lookup_insert_ne fun heq => hp ?_).trans (h.others p hp)
    exact heq ▸ List.mem_map_of_mem hj

/-- The row of a job is updated that has its response. -/
theorem Mending.update (hg : Filed g) (h : Mending g t f) (hj : j ∈ g.jobs) (hb : Broken g j)
    (hrow : f j = j) {file : Bytes} (hfile : file = mendedFile j.id)
    (hlookup : t.spool.lookup j.path = some file) :
    ∃ f', Mending g (t.updateJob j.sid j.id fun r =>
        { r with state := .done, size := file.length, offset := 0 }) f' ∧
      Whole (t.updateJob j.sid j.id fun r =>
        { r with state := .done, size := file.length, offset := 0 }) f' j ∧
      ∀ i ∈ g.jobs, i ≠ j → f' i = f i := by
  subst hfile
  let f' : Job → Job := fun i => if (f i).Is j.sid j.id then
    { f i with state := .done, size := (mendedFile j.id).length, offset := 0 } else f i
  have hkey : ∀ i ∈ g.jobs, ((f i).Is j.sid j.id ↔ i = j) := by
    intro i hi
    obtain ⟨hsid, hid, -⟩ := h.same hi
    rw [Job.Is, hsid, hid]
    exact ⟨fun his => eq_of_is hg.keys hi hj his ⟨rfl, rfl⟩, fun heq => heq ▸ ⟨rfl, rfl⟩⟩
  have hself : f' j = mended j := by
    change (if (f j).Is j.sid j.id then _ else _) = _
    rw [if_pos ((hkey j hj).2 rfl), hrow]
    rfl
  have hother : ∀ i ∈ g.jobs, i ≠ j → f' i = f i := fun i hi hne =>
    if_neg fun his => hne ((hkey i hi).1 his)
  refine ⟨f', ⟨?_, fun i hi hbi => ?_, fun i hi hbi => ?_, h.others⟩, ⟨hself, hlookup⟩, hother⟩
  · change t.jobs.map _ = _
    rw [h.jobs, List.map_map]
    rfl
  · by_cases hij : i = j
    · subst hij
      exact .inr ⟨hself, hlookup⟩
    · rw [Whole, hother i hi hij]
      exact h.broken i hi hbi
  · rw [hother i hi fun hij => hbi (hij ▸ hb)]
    exact h.sound i hi hbi

/-! ## One recovery -/

/-- The loop of `Recover`, with rows left: what is broken is mended or left. -/
structure Loop (g : Gateway) (rows : List Job) (t : Gateway) (f : Job → Job) : Prop where
  mending : Mending g t f
  seen : Seen g t f
  waiting : ∀ j ∈ g.jobs, Broken g j → Whole t f j ∨ f j ∈ rows
  listed : ∀ r ∈ rows, r.state ≠ .queued ∧ ∃ j ∈ g.jobs, r = f j
  distinct : (rows.map fun r => (r.sid, r.id)).Nodup

/-- The loop is where it was. -/
theorem Loop.elsewhere {rows : List Job} (h : Loop g rows s f) (he : Elsewhere s t) :
    Loop g rows t f := by
  obtain ⟨hmending, hseen, hwaiting, hlisted, hdistinct⟩ := h
  unfold Seen at hseen
  unfold Whole at hseen hwaiting
  rw [← he.2] at hseen hwaiting
  exact ⟨hmending.elsewhere he, hseen, hwaiting, hlisted, hdistinct⟩

/-- The test of `Recover` on a row. -/
theorem Loop.test (hg : Filed g) {row : Job} {rows : List Job} (h : Loop g (row :: rows) t f) :
    (row.state = .running ∨ row.path ∉ t.spool) ∧ row ∈ g.jobs ∧ Broken g row ∧ f row = row ∧
        ¬ Whole t f row ∨
      ¬ (row.state = .running ∨ row.path ∉ t.spool) ∧ Loop g rows t f := by
  obtain ⟨hstate, j, hj, rfl⟩ := h.listed _ List.mem_cons_self
  have hwhole : Whole t f j → ¬ ((f j).state = .running ∨ (f j).path ∉ t.spool) := by
    intro hw htest
    rw [hw.1] at htest
    rcases htest with hrun | hmissing
    · cases hrun
    · refine hmissing (AList.lookup_isSome.1 ?_)
      change (t.spool.lookup j.path).isSome = true
      rw [hw.2]
      rfl
  -- Behind a row that need not be mended, the rest of the loop goes on.
  have hpass : (Broken g j → Whole t f j) → Loop g rows t f := by
    intro hdone
    refine ⟨h.mending, h.seen, fun i hi hbi => ?_, fun r hr => h.listed r (.tail _ hr),
      (List.nodup_cons.1 h.distinct).2⟩
    rcases h.waiting i hi hbi with hw | hmem
    · exact .inl hw
    · rcases List.mem_cons.1 hmem with heq | hmem
      · obtain ⟨hsid, hid, -⟩ := h.mending.same hi
        obtain ⟨hsid', hid', -⟩ := h.mending.same hj
        rw [heq] at hsid hid
        have hij : i = j :=
          eq_of_is hg.keys hi hj ⟨hsid.symm.trans hsid', hid.symm.trans hid'⟩ ⟨rfl, rfl⟩
        subst hij
        exact .inl (hdone hbi)
      · exact .inr hmem
  by_cases hb : Broken g j
  · by_cases hw : Whole t f j
    · exact .inr ⟨hwhole hw, hpass fun _ => hw⟩
    · have hrow : f j = j := (h.mending.broken j hj hb).resolve_right hw
      rw [hrow] at hstate ⊢
      exact .inl ⟨(h.seen j hj hb).resolve_left hw, hj, hb, hrow, hw⟩
  · obtain ⟨hrow, hfile⟩ := h.mending.sound j hj hb
    refine .inr ⟨fun htest => hb ?_, hpass fun hb' => absurd hb' hb⟩
    rw [hrow] at hstate htest
    rcases htest with hrun | hmissing
    · exact .inl hrun
    · have habsent : j.path ∉ g.spool := fun hmem => hmissing (AList.lookup_isSome.1 (by
        rw [hfile]
        exact AList.lookup_isSome.2 hmem))
      cases hcase : j.state with
      | queued => exact absurd hcase hstate
      | running => exact .inl hcase
      | done => exact .inr ⟨hcase, habsent⟩

/-- The response of a row is there, and its row is not updated yet. -/
structure Half (g : Gateway) (row : Job) (rows : List Job) (t : Gateway) (f : Job → Job) : Prop where
  mending : Mending g t f
  kept : f row = row
  file : t.spool.lookup row.path = some (mendedFile row.id)
  seen : ∀ j ∈ g.jobs, j ≠ row → Broken g j → Whole t f j ∨ j.state = .running ∨ j.path ∉ t.spool
  waiting : ∀ j ∈ g.jobs, j ≠ row → Broken g j → Whole t f j ∨ f j ∈ rows
  listed : ∀ r ∈ rows, r.state ≠ .queued ∧ ∃ j ∈ g.jobs, j ≠ row ∧ r = f j
  distinct : (rows.map fun r => (r.sid, r.id)).Nodup

/-- So is the iteration that has begun. -/
theorem Half.elsewhere {row : Job} {rows : List Job} (h : Half g row rows s f)
    (he : Elsewhere s t) : Half g row rows t f := by
  obtain ⟨hmending, hrow, hfile, hseen, hwaiting, hlisted, hdistinct⟩ := h
  unfold Whole at hseen hwaiting
  rw [← he.2] at hfile hseen hwaiting
  exact ⟨hmending.elsewhere he, hrow, hfile, hseen, hwaiting, hlisted, hdistinct⟩

/-- The response of a row is written. -/
theorem Loop.half (hg : Filed g) {row : Job} {rows : List Job} (h : Loop g (row :: rows) t f)
    (hj : row ∈ g.jobs) (hb : Broken g row) (hrow : f row = row) :
    Half g row rows { t with spool := t.spool.insert row.path (mendedFile row.id) } f := by
  obtain ⟨hmending, hother⟩ := h.mending.insert hg hj hb hrow (mendedFile row.id)
  have hwhole : ∀ i ∈ g.jobs, i ≠ row → Whole t f i →
      Whole { t with spool := t.spool.insert row.path (mendedFile row.id) } f i :=
    fun i hi hne hw => ⟨hw.1, (hother i hi hne).trans hw.2⟩
  have hkey : ∀ i ∈ g.jobs, ((f i).sid, (f i).id) = (row.sid, row.id) → i = row := by
    intro i hi heq
    obtain ⟨hsid, hid, -⟩ := h.mending.same hi
    obtain ⟨hsid', hid'⟩ := Prod.mk.inj heq
    exact eq_of_is hg.keys hi hj ⟨hsid.symm.trans hsid', hid.symm.trans hid'⟩ ⟨rfl, rfl⟩
  obtain ⟨hfirst, hdistinct⟩ := List.nodup_cons.1 h.distinct
  refine ⟨hmending, hrow, AList.lookup_insert _, fun i hi hne hbi => ?_, fun i hi hne hbi => ?_,
    fun r hr => ?_, hdistinct⟩
  · refine (h.seen i hi hbi).imp (hwhole i hi hne) (Or.imp_right fun hmissing hmem => hmissing ?_)
    refine (AList.mem_insert _).1 hmem |>.resolve_left fun heq => hne ?_
    exact List.inj_on_of_nodup_map hg.paths hi hj heq
  · rcases h.waiting i hi hbi with hw | hmem
    · exact .inl (hwhole i hi hne hw)
    · refine .inr ((List.mem_cons.1 hmem).resolve_left fun heq => hne (hkey i hi ?_))
      rw [heq]
  · obtain ⟨hstate, i, hi, hri⟩ := h.listed r (.tail _ hr)
    refine ⟨hstate, i, hi, fun heq => hfirst ?_, hri⟩
    rw [heq, hrow] at hri
    exact hri ▸ List.mem_map_of_mem hr

/-- Whatever is written of the response of a row, what is mended stays so. -/
theorem Loop.advances_insert (hg : Filed g) {row : Job} {rows : List Job}
    (h : Loop g (row :: rows) t f) (hj : row ∈ g.jobs) (hb : Broken g row) (hrow : f row = row)
    (hnot : ¬ Whole t f row) (file : Bytes) :
    Advances g t { t with spool := t.spool.insert row.path file } := by
  intro f₁ hf₁
  have hsame : ∀ i ∈ g.jobs, f₁ i = f i := fun i hi => h.mending.unique hf₁ hi
  obtain ⟨hmending, hother⟩ := hf₁.insert hg hj hb ((hsame row hj).trans hrow) file
  refine ⟨f₁, hmending, fun i hi _ hw => ?_⟩
  have hne : i ≠ row := by
    intro heq
    subst heq
    exact hnot ⟨(hsame i hi).symm.trans hw.1, hw.2⟩
  exact ⟨hw.1, (hother i hi hne).trans hw.2⟩

/-- The row is updated. -/
theorem Half.loop (hg : Filed g) {row : Job} {rows : List Job} (h : Half g row rows t f)
    (hj : row ∈ g.jobs) (hb : Broken g row) {file : Bytes} (hfile : file = mendedFile row.id) :
    ∃ f', Loop g rows (t.updateJob row.sid row.id fun r =>
        { r with state := .done, size := file.length, offset := 0 }) f' ∧
      ∀ i ∈ g.jobs, Broken g i → Whole t f i →
        Whole (t.updateJob row.sid row.id fun r =>
          { r with state := .done, size := file.length, offset := 0 }) f' i := by
  obtain ⟨f', hmending, hwhole, hother⟩ :=
    h.mending.update hg hj hb h.kept hfile (hfile ▸ h.file)
  have hkeep : ∀ i ∈ g.jobs, i ≠ row → Whole t f i →
      Whole (t.updateJob row.sid row.id fun r =>
        { r with state := .done, size := file.length, offset := 0 }) f' i := by
    intro i hi hne hw
    exact ⟨(hother i hi hne).trans hw.1, hw.2⟩
  refine ⟨f', ⟨hmending, fun i hi hbi => ?_, fun i hi hbi => ?_, fun r hr => ?_, h.distinct⟩,
    fun i hi hbi hw => ?_⟩
  · by_cases hne : i = row
    · exact .inl (hne ▸ hwhole)
    · exact (h.seen i hi hne hbi).imp_left (hkeep i hi hne)
  · by_cases hne : i = row
    · exact .inl (hne ▸ hwhole)
    · rw [hother i hi hne]
      exact (h.waiting i hi hne hbi).imp_left (hkeep i hi hne)
  · obtain ⟨hstate, i, hi, hne, hri⟩ := h.listed r hr
    exact ⟨hstate, i, hi, hri.trans (hother i hi hne).symm⟩
  · by_cases hne : i = row
    · exact hne ▸ hwhole
    · exact hkeep i hi hne hw

/-- The response of a job that was interrupted is one frame. -/
theorem file_interrupted {env : Env} {id : Bytes} {disk : List Io} (hid : isIdText id = true)
    (hok : ((Spool.create id Limits.spoolBytes disk).single env (error id interrupted)).1.ok = true) :
    ((Spool.create id Limits.spoolBytes disk).single env (error id interrupted)).2.file =
      mendedFile id := by
  have hbrief : interrupted.Brief := by
    unfold Status.Brief
    decide
  have hlength := length_error_le hid hbrief (show 0 < 2 ^ 64 by decide)
  obtain ⟨m, hframe, hm, hseq⟩ : ∃ m, error id interrupted = .obj m ∧ m ≠ [] ∧
      Json.find "seq" m = none := ⟨_, rfl, List.cons_ne_nil _ _, rfl⟩
  rw [mendedFile]
  rw [hframe] at hlength hok ⊢
  exact Spool.file_single hm hseq (hlength.trans (by decide)) hok

/-- A response that could be written has a file. -/
theorem opened_of_ok {env : Env} {id : Bytes} {disk : List Io} {frame : Json}
    (hok : ((Spool.create id Limits.spoolBytes disk).single env frame).1.ok = true) :
    ((Spool.create id Limits.spoolBytes disk).single env frame).2.opened = true :=
  (@Spool.serve_of_ok env id Limits.spoolBytes disk (.single frame) hok).2.2

variable {site : Site}

/-- `MarkDone` of a row whose response is there. -/
theorem follows_markDone (hg : Filed g) {row : Job} {rows : List Job} (h : Half g row rows t f)
    (hj : row ∈ g.jobs) (hb : Broken g row) :
    (markDone row.sid row.id row.path).Follows Elsewhere (Advances g) (fun _ => True)
      (fun _ u => ∃ f', Loop g rows u f') t := by
  refine Prog.Follows.seq (Q := fun _ u => Half g row rows u f) ?_ ?_
  · refine Prog.Follows.seq (Q := fun _ u => Half g row rows u f) ?_ ?_
    · exact Prog.Follows.step fun u hu _ _ => ⟨.refl u, h.elsewhere hu⟩
    · intro ok u hu
      split_ifs
      · exact hu
      · trivial
  intro _ u hu
  refine Prog.Follows.seq (Q := fun found v => Half g row rows v f ∧
    found = some (mendedFile row.id)) ?_ ?_
  · refine Prog.Follows.read .refl fun v hv _ => ?_
    have hhalf := hu.elsewhere hv
    exact ⟨hhalf, hhalf.file⟩
  intro found v hv
  obtain ⟨hhalf, rfl⟩ := hv
  refine Prog.Follows.step fun v' hv' _ _ => ?_
  have hhalf := hhalf.elsewhere hv'
  obtain ⟨f', hloop, hkeep⟩ := hhalf.loop hg hj hb rfl
  refine ⟨fun f₁ hf₁ => ⟨f', hloop.mending, fun i hi hbi hw => hkeep i hi hbi ?_⟩, f', hloop⟩
  exact ⟨(hhalf.mending.unique hf₁ hi).symm.trans hw.1, hw.2⟩

/-- One row. -/
theorem follows_recoverOne (hg : Filed g) {row : Job} {rows : List Job}
    (h : Loop g (row :: rows) t f) :
    (recoverOne site row).Follows Elsewhere (Advances g) (fun _ => True)
      (fun _ u => ∃ f', Loop g rows u f') t := by
  refine Prog.Follows.seq (Q := fun missing u => Loop g (row :: rows) u f ∧
    missing = decide (row.path ∉ u.spool)) ?_ ?_
  · exact Prog.Follows.read .refl fun u hu _ => ⟨h.elsewhere hu, rfl⟩
  intro missing u hu
  obtain ⟨hloop, rfl⟩ := hu
  rcases hloop.test hg with ⟨htest, hj, hb, hrow, hnot⟩ | ⟨htest, hrest⟩
  · have hcase : (decide (row.state = .running) || decide (row.path ∉ u.spool)) = true := by
      simpa using htest
    rw [if_pos hcase]
    have hid := hg.named row hj
    refine Prog.Follows.seq (Q := fun _ v => Half g row rows v f) ?_ ?_
    · refine Prog.Follows.seq (Q := fun status v => status.ok = true → Half g row rows v f) ?_ ?_
      · refine Prog.Follows.step fun v hv _ c => ?_
        have hloop := hloop.elsewhere hv
        have hnot : ¬ Whole v f row := by
          rwa [Whole, hv.2]
        dsimp only
        split_ifs with hopened
        · refine ⟨hloop.advances_insert hg hj hb hrow hnot _, fun hok => ?_⟩
          have hhalf := hloop.half hg hj hb hrow
          rwa [← file_interrupted hid hok] at hhalf
        · exact ⟨.refl v, fun hok => absurd (opened_of_ok hok) hopened⟩
      · intro status v hv
        split_ifs with hok
        · exact hv hok
        · trivial
    · intro _ v hv
      exact follows_markDone hg hv hj hb
  · have hcase : ¬ (decide (row.state = .running) || decide (row.path ∉ u.spool)) = true := by
      simpa using htest
    rw [if_neg hcase]
    exact ⟨f, hrest⟩

/-- A recovery ends with every broken job mended. -/
def Recovered (g t : Gateway) : Prop :=
  ∃ f, Mending g t f ∧ ∀ j ∈ g.jobs, Broken g j → Whole t f j

/-- Recovered rows stay recovered. -/
theorem Recovered.elsewhere (h : Recovered g s) (he : Elsewhere s t) : Recovered g t := by
  obtain ⟨f, hmending, hwhole⟩ := h
  refine ⟨f, hmending.elsewhere he, fun j hj hb => ?_⟩
  rw [Whole, he.2]
  exact hwhole j hj hb

/-- A recovery that goes on where others were cut off. -/
theorem follows_recover (hg : Filed g) (hmending : Mending g t f) (hseen : Seen g t f) :
    (recover site).Follows Elsewhere (Advances g) (fun _ => True) (fun _ u => Recovered g u) t := by
  refine Prog.Follows.seq (Q := fun rows u => ∃ f', Loop g rows u f') ?_ ?_
  · refine Prog.Follows.read .refl fun u hu _ => ⟨f, hmending.elsewhere hu, ?_, ?_, ?_, ?_⟩
    · unfold Seen Whole
      rw [hu.2]
      exact hseen
    · intro j hj hb
      refine .inr (List.mem_filter.2 ⟨?_, decide_eq_true ?_⟩)
      · rw [hu.1, hmending.jobs]
        exact List.mem_map_of_mem hj
      · rcases hmending.broken j hj hb with heq | ⟨heq, -⟩
        · rw [heq]
          rcases hb with hrun | ⟨hdone, -⟩
          · simp [hrun]
          · simp [hdone]
        · simp [heq, mended]
    · intro r hr
      obtain ⟨hr, hstate⟩ := List.mem_filter.1 hr
      rw [hu.1, hmending.jobs] at hr
      obtain ⟨j, hj, rfl⟩ := List.mem_map.1 hr
      exact ⟨of_decide_eq_true hstate, j, hj, rfl⟩
    · refine (List.Nodup.sublist (List.filter_sublist.map _) ?_)
      rw [hu.1, hmending.jobs, List.map_map]
      refine (List.map_congr_left fun j hj => ?_) ▸ hg.keys
      obtain ⟨hsid, hid, -⟩ := hmending.same hj
      exact (congrArg₂ Prod.mk hsid hid).symm
  intro rows u hu
  refine Prog.Follows.seq (Q := fun _ v => Recovered g v) ?_ ?_
  · refine (Prog.Follows.forEach (J := fun rows v => ∃ f', Loop g rows v f') ?_ hu).mono ?_
    · intro row rows v hv
      obtain ⟨f', hloop⟩ := hv
      exact follows_recoverOne hg hloop
    · intro _ v hv
      obtain ⟨f', hloop⟩ := hv
      exact ⟨f', hloop.mending, fun j hj hb =>
        (hloop.waiting j hj hb).resolve_right List.not_mem_nil⟩
  · intro _ v hv
    refine Prog.Follows.step fun v' hv' _ _ => ?_
    have hready : Elsewhere v' { v' with ready := true } := ⟨rfl, rfl⟩
    exact ⟨hready.advances, (hv.elsewhere hv').elsewhere hready⟩

/-! ## Recoveries that are cut off -/

/-- A recovery that is cut off elsewhere than in the repair of a job that is done. -/
theorem Attempt.seen (hg : Filed g) (hmending : Mending g s f) (hseen : Seen g s f)
    (hattempt : Attempt site s t) (hclean : Clean s t) : ∃ f', Mending g t f' ∧ Seen g t f' := by
  obtain ⟨q, hgoes⟩ := hattempt
  have hadvances : Advances g s t := (follows_recover hg hmending hseen).goes hgoes .refl .trans
    (fun _ _ _ he h => h.elsewhere he) .refl .trans fun he => he.advances
  obtain ⟨f', hmending', hkeep⟩ := hadvances f hmending
  refine ⟨f', hmending', fun j hj hb => ?_⟩
  rcases hseen j hj hb with hwhole | hrun | hmissing
  · exact .inl (hkeep j hj hb hwhole)
  · exact .inr (.inl hrun)
  · by_cases hthere : j.path ∈ t.spool
    · rcases hmending'.broken j hj hb with hrow' | hwhole
      · have hrow : f j = j := (hmending.broken j hj hb).resolve_right fun hw => hmissing
          (AList.lookup_isSome.1 (by rw [hw.2]; rfl))
        have hbefore : j ∈ s.jobs := by
          rw [hmending.jobs]
          exact List.mem_map.2 ⟨j, hj, hrow⟩
        have hafter : j ∈ t.jobs := by
          rw [hmending'.jobs]
          exact List.mem_map.2 ⟨j, hj, hrow'⟩
        rcases hb with hrun | ⟨hdone, -⟩
        · exact .inr (.inl hrun)
        · obtain ⟨hsame, hfile⟩ := hclean j hbefore hdone hmissing hafter hthere
          exact .inl ⟨hrow'.trans hsame, hfile⟩
      · exact .inl hwhole
    · exact .inr (.inr hthere)

/-- Nothing was seen yet. -/
theorem seen_self (g : Gateway) : Seen g g id := fun _ _ hb => .inr (hb.imp_right And.right)

/-- A recovery that was cut off has mended some rows, and left the others. -/
theorem Restarts.seen (hg : Filed g) (h : Restarts site g t) :
    ∃ f, Mending g t f ∧ Seen g t f := by
  induction h with
  | refl =>
    exact ⟨id, .refl g, seen_self g⟩
  | tail _ hstep ih =>
    obtain ⟨f, hmending, hseen⟩ := ih
    exact hstep.1.seen hg hmending hseen hstep.2

/-- Two recoveries of one journal end with the same rows and files. -/
theorem Recovered.unique (h : Recovered g s) (h' : Recovered g t) :
    s.jobs = t.jobs ∧ ∀ p, s.spool.lookup p = t.spool.lookup p := by
  obtain ⟨f, hmending, hwhole⟩ := h
  obtain ⟨f', hmending', hwhole'⟩ := h'
  constructor
  · rw [hmending.jobs, hmending'.jobs]
    refine List.map_congr_left fun j hj => ?_
    by_cases hb : Broken g j
    · rw [(hwhole j hj hb).1, (hwhole' j hj hb).1]
    · rw [(hmending.sound j hj hb).1, (hmending'.sound j hj hb).1]
  · intro p
    by_cases hp : p ∈ g.jobs.map (·.path)
    · obtain ⟨j, hj, rfl⟩ := List.mem_map.1 hp
      by_cases hb : Broken g j
      · rw [(hwhole j hj hb).2, (hwhole' j hj hb).2]
      · rw [(hmending.sound j hj hb).2, (hmending'.sound j hj hb).2]
    · rw [hmending.others p hp, hmending'.others p hp]

/-- **Recovery is idempotent where no repair of a finished job is cut off**: however often `Recover`
starts again, the journal and the files are in the end those of one recovery, and every job that was
running, or done without its response, is done with the error `outcome_unknown`. -/
theorem recover_idempotent (site : Site) (g t u v : Gateway) (hg : Filed g)
    (hrestarts : Restarts site g t) (hlast : (recover site).Runs Elsewhere t () u)
    (honce : (recover site).Runs Elsewhere g () v) :
    u.jobs = v.jobs ∧ (∀ p, u.spool.lookup p = v.spool.lookup p) ∧
      ∀ j ∈ g.jobs, j.state = .running ∨ j.state = .done ∧ j.path ∉ g.spool →
        { j with state := .done, size := (mendedFile j.id).length, offset := 0 } ∈ u.jobs ∧
          u.spool.lookup j.path = some (mendedFile j.id) := by
  obtain ⟨f, hmending, hseen⟩ := hrestarts.seen hg
  have hkeep : ∀ (_ : Unit) (s t : Gateway), Elsewhere s t → Recovered g s → Recovered g t :=
    fun _ _ _ he h => h.elsewhere he
  have hu : Recovered g u := (follows_recover hg hmending hseen).runs hlast .refl .trans hkeep
  have hv : Recovered g v :=
    (follows_recover hg (.refl g) (seen_self g)).runs honce .refl .trans hkeep
  obtain ⟨hjobs, hfiles⟩ := hu.unique hv
  refine ⟨hjobs, hfiles, fun j hj hb => ?_⟩
  obtain ⟨f', hmending', hwhole⟩ := hu
  refine ⟨?_, (hwhole j hj hb).2⟩
  rw [hmending'.jobs]
  exact List.mem_map.2 ⟨j, hj, (hwhole j hj hb).1⟩

end

/-! ## A repair that is cut off -/

/-- An installation for the runs below. -/
def plainSite : Site where
  env := Env.plain
  space := "vpp"
  state := "state"
  backend := .mock
  clients := []
  owner := "gw"
  random _ := ⟨List.replicate 16 0, by simp⟩

/-- A journal with one job whose response is missing. -/
def oneJob (state : JobState) : Gateway :=
  { uploads := { now := 1 }, jobs := [⟨"s", "a", "x", "p", 9, state, 5, 10⟩] }

/-- The process ends when it has created the file of the response. -/
def cutOff (state : JobState) : Gateway :=
  ((recover plainSite).advance { disk := [.ok, .fail 0] } 3 (oneJob state)).2

/-- A crash in the middle of the recovery of one row. -/
theorem attempt_cutOff (state : JobState) : Attempt plainSite (oneJob state) (cutOff state) :=
  ⟨_, Prog.goes_advance _ _ _ _⟩

/-- The journal with one job names each session and each file once. -/
theorem filed_oneJob (state : JobState) : Filed (oneJob state) :=
  ⟨List.nodup_singleton _, List.nodup_singleton _, fun j hj => by
    obtain rfl := List.mem_singleton.1 hj
    rfl⟩

/-- A run of recovery without failures. -/
theorem recovers {g : Gateway} (h : ((recover plainSite).total {} g).isSome = true) :
    ∃ u, (recover plainSite).Runs Elsewhere g () u ∧
      ((recover plainSite).total {} g).map (·.2.jobs) = some u.jobs := by
  obtain ⟨r, hr⟩ := Option.isSome_iff_exists.1 h
  exact ⟨r.2, .of_total hr, by rw [hr]; rfl⟩

/-- A journal with a running job and one that was done, whose responses are missing. -/
def twoJobs : Gateway :=
  { uploads := { now := 1 },
    jobs := [⟨"s", "a", "x", "p", 9, .running, 5, 10⟩, ⟨"s", "b", "y", "q", 9, .done, 7, 11⟩] }

/-- The process ends when it has created the file of the first response. -/
def cutOffFirst : Gateway :=
  ((recover plainSite).advance { disk := [.ok, .fail 0] } 3 twoJobs).2

/-- Two jobs whose recovery was cut off at the first one. -/
theorem recover_idempotent_two_jobs : ∃ u v,
    (recover plainSite).Runs Elsewhere cutOffFirst () u ∧
      (recover plainSite).Runs Elsewhere twoJobs () v ∧ u.jobs = v.jobs := by
  obtain ⟨u, hu, -⟩ := recovers (g := cutOffFirst) (by decide +kernel)
  obtain ⟨v, hv, -⟩ := recovers (g := twoJobs) (by decide +kernel)
  have hmissing : ∀ j ∈ twoJobs.jobs, j.state = .done → j.path ∉ cutOffFirst.spool := by
    decide +kernel
  have hclean : Clean twoJobs cutOffFirst := fun j hj hdone _ _ hthere =>
    absurd hthere (hmissing j hj hdone)
  have hfiled : Filed twoJobs := ⟨by decide +kernel, by decide +kernel, by decide +kernel⟩
  exact ⟨u, v, hu, hv, (recover_idempotent plainSite _ _ u v hfiled
    (.single ⟨⟨_, Prog.goes_advance _ _ _ _⟩, hclean⟩) hu hv).1⟩

/-- **A job that was done keeps an empty response**: the next recovery takes the file that was
created for the response of the job. -/
theorem recover_not_idempotent : ¬ ∀ (site : Site) (g t u v : Gateway), Filed g →
    Relation.ReflTransGen (Attempt site) g t → (recover site).Runs Elsewhere t () u →
      (recover site).Runs Elsewhere g () v → u.jobs = v.jobs := by
  intro hlaw
  obtain ⟨u, hu, hjobs⟩ := recovers (g := cutOff .done) (by decide +kernel)
  obtain ⟨v, hv, hjobs'⟩ := recovers (g := oneJob .done) (by decide +kernel)
  have hsame := hlaw plainSite _ _ u v (filed_oneJob .done) (.single (attempt_cutOff _)) hu hv
  have hne : ((recover plainSite).total {} (cutOff .done)).map (·.2.jobs) ≠
      ((recover plainSite).total {} (oneJob .done)).map (·.2.jobs) := by
    decide +kernel
  exact hne (by rw [hjobs, hjobs', hsame])

end Gateway

end VppJson
