import VppJsonGateway.AssemblerSafety
import VppJsonGateway.SpoolFrames

/-!
# The client waits for a response

`Wait` of `src/tools/client.cc`: the client goes through the rows of its response stream, takes the
frames of its request in the order of their numbers and leaves out every other one. The gateway may
publish a line twice or start again from the first line at any time, and the client may begin in the
middle of that; `Delivery` is such a history. For a response a spool wrote, `Wait` never fails in one:
it waits, or it has the frame that ends the response.
-/

namespace VppJson

open Lib

/-! ## Rows -/

/-- The locals of `Wait`. -/
structure Waiter where
  expected : Nat := 0
  assembler : Assembler := {}
  deriving DecidableEq

/-- How `Wait` ends before its deadline: with the terminal frame, in `Fail` with a message, or by an
exception of the JSON library. -/
inductive Verdict where
  | answered (frame : Json)
  | failed (message : Bytes)
  | thrown

/-- The last frame of a response, once it is whole. -/
def isTerminal (frame : Json) : Bool :=
  match frame.get? "type" with
  | some (.str type) => type == utf8 "complete" || type == utf8 "result" || type == utf8 "error"
  | _ => false

namespace Waiter

/-- A frame of the request. -/
def own (env : Env) (w : Waiter) (frame : Json) : Except Verdict Waiter :=
  match frame.get? "seq" with
  | some (.uint seq) =>
    if seq > 2 ^ 64 - 1 then .error (.failed "Missing frame sequence")
    else if seq > w.expected ∧ w.expected ≠ 0 then
      .error (.failed "Response gap detected; replay the request")
    else if seq = w.expected then
      match w.assembler.accept env frame with
      | (status, ready, assembler) =>
        if !status.ok then .error (.failed status.message)
        else if ready.any isTerminal then .error (.answered (ready.getD .null))
        else .ok { expected := (w.expected + 1) % 2 ^ 64, assembler }
    else .ok w
  | _ => .error (.failed "Missing frame sequence")

/-- One row: what is parsed from its field, where that is JSON. -/
def row (env : Env) (id : Bytes) (w : Waiter) (frame : Option Json) : Except Verdict Waiter :=
  match frame with
  | some (.obj m) =>
    match (Json.obj m).get? "id" with
    | some (.str text) => if text = id then w.own env (.obj m) else .ok w
    | some _ => .error .thrown
    | none => if id = [] then w.own env (.obj m) else .ok w
  | _ => .ok w

/-- The rows one after the other, as long as `Wait` goes on. -/
def rows (env : Env) (id : Bytes) : Waiter → List (Option Json) → Except Verdict Waiter
  | w, [] => .ok w
  | w, frame :: frames => (w.row env id frame).bind (rows env id · frames)

/-- Frames are waited for one after the other. -/
theorem rows_append (env : Env) (id : Bytes) (frames frames' : List (Option Json)) :
    ∀ w : Waiter, w.rows env id (frames ++ frames') =
      (w.rows env id frames).bind (rows env id · frames') := by
  induction frames with
  | nil => exact fun _ => rfl
  | cons frame frames ih =>
    intro w
    rw [List.cons_append, rows, rows]
    cases w.row env id frame with
    | error verdict => rfl
    | ok w' => exact ih w'

end Waiter

/-! ## Histories -/

/-- The lines of a response, as a client reads them. -/
structure Lines (id : Bytes) (lines : List Json) : Prop where
  names : ∀ line ∈ lines, Names id line
  seq : ∀ n (h : n < lines.length), lines[n].get? "seq" = some (.uint n)
  short : lines.length ≤ 2 ^ 64

/-- A row that is none of the request: no object, or one with another ID. -/
def Foreign (id : Bytes) (frame : Option Json) : Prop :=
  ∀ m, frame = some (.obj m) → ∃ other, (Json.obj m).get? "id" = some (.str other) ∧ other ≠ id

/-- Rows of a stream after the line with the given number was published last: every further line of
the response is the first one, the same one or the next one. -/
inductive Delivery (id : Bytes) (lines : List Json) : Option Nat → List (Option Json) → Prop
  | nil {last : Option Nat} : Delivery id lines last []
  | foreign {last : Option Nat} {frame : Option Json} {frames : List (Option Json)}
      (hframe : Foreign id frame) (rest : Delivery id lines last frames) :
      Delivery id lines last (frame :: frames)
  | line {last : Option Nat} {n : Nat} {frames : List (Option Json)} (hn : n < lines.length)
      (hnext : n = 0 ∨ ∃ p, last = some p ∧ (n = p ∨ n = p + 1))
      (rest : Delivery id lines (some n) frames) :
      Delivery id lines last (some lines[n] :: frames)

section

variable {env : Env} {id : Bytes} {lines : List Json} {w : Waiter}

/-- A frame of another request changes nothing. -/
theorem Waiter.row_foreign {frame : Option Json} (h : Foreign id frame) :
    w.row env id frame = .ok w := by
  cases frame with
  | none => rfl
  | some j =>
    cases j with
    | obj m =>
      obtain ⟨other, hother, hne⟩ := h m rfl
      simp only [Waiter.row, hother, if_neg hne]
    | null | bool | int | uint | float | str | arr => rfl

/-- A line of the response. -/
theorem Waiter.row_line (h : Lines id lines) {n : Nat} (hn : n < lines.length) :
    w.row env id (some lines[n]) =
      if n > w.expected ∧ w.expected ≠ 0 then
        .error (.failed "Response gap detected; replay the request")
      else if n = w.expected then
        match w.assembler.accept env lines[n] with
        | (status, ready, assembler) =>
          if !status.ok then .error (.failed status.message)
          else if ready.any isTerminal then .error (.answered (ready.getD .null))
          else .ok { expected := (w.expected + 1) % 2 ^ 64, assembler }
      else .ok w := by
  have hseq := h.seq n hn
  obtain ⟨hobj, hid⟩ := h.names _ (List.getElem_mem hn)
  obtain ⟨m, hm⟩ := Json.isObject_iff.1 hobj
  have hshort := h.short
  have hsmall : ¬ n > 2 ^ 64 - 1 := by omega
  rw [hm] at hid hseq ⊢
  simp only [Waiter.row, hid, if_pos, Waiter.own, hseq, if_neg hsmall]

/-- A line that was taken before, or one that comes before the first. -/
theorem Waiter.row_repeated (h : Lines id lines) {n : Nat} (hn : n < lines.length)
    (hold : n < w.expected ∨ (w.expected = 0 ∧ n ≠ 0)) : w.row env id (some lines[n]) = .ok w := by
  rw [Waiter.row_line h hn, if_neg, if_neg]
  · omega
  · omega

end

/-! ## Waiting -/

/-- What is left of a response, line by line, gives the answer at its end and nothing terminal
before. -/
structure Waiter.Awaits (env : Env) (lines : List Json) (answer : Json) (w : Waiter) : Prop where
  rest : ∃ quiet, w.assembler.acceptAll env (lines.drop w.expected) = some (quiet ++ [some answer]) ∧
    ∀ ready ∈ quiet, ready.any isTerminal = false
  terminal : isTerminal answer = true

namespace Waiter

section

variable {env : Env} {id : Bytes} {lines : List Json} {answer : Json} {w : Waiter}

theorem Awaits.lt (h : w.Awaits env lines answer) : w.expected < lines.length := by
  by_contra hle
  obtain ⟨quiet, hquiet, -⟩ := h.rest
  rw [List.drop_eq_nil_of_le (not_lt.1 hle), Assembler.acceptAll, Option.some_inj] at hquiet
  simp at hquiet

/-- The line that is next is the last one, or leaves `Wait` waiting for the line after it. -/
theorem Awaits.row_next (h : w.Awaits env lines answer) (hlines : Lines id lines)
    (hn : w.expected < lines.length) :
    w.row env id (some lines[w.expected]) = .error (.answered answer) ∨
      ∃ w', w.row env id (some lines[w.expected]) = .ok w' ∧
        w'.expected = w.expected + 1 ∧ w'.Awaits env lines answer := by
  obtain ⟨quiet, hquiet, hnone⟩ := h.rest
  rw [List.drop_eq_getElem_cons hn, Assembler.acceptAll] at hquiet
  rw [row_line hlines hn, if_neg (fun hgap => absurd hgap.1 (lt_irrefl _)), if_pos rfl]
  cases haccept : w.assembler.accept env lines[w.expected] with
  | mk status after =>
    obtain ⟨ready, assembler⟩ := after
    rw [haccept] at hquiet
    simp only at hquiet ⊢
    split at hquiet
    · next hok =>
      rw [hok]
      obtain ⟨readies, hreadies, hcons⟩ := Option.map_eq_some_iff.1 hquiet
      cases quiet with
      | nil =>
        left
        rw [List.nil_append, List.cons.injEq] at hcons
        simp [hcons.1, h.terminal]
      | cons first quiet =>
        right
        rw [List.cons_append, List.cons.injEq] at hcons
        obtain ⟨rfl, rfl⟩ := hcons
        have hfirst := hnone ready List.mem_cons_self
        -- A response of 2 ^ 64 lines is over before the counter turns.
        have hmore : w.expected + 1 < lines.length := by
          by_contra hle
          rw [List.drop_eq_nil_of_le (not_lt.1 hle), Assembler.acceptAll, Option.some_inj]
            at hreadies
          simp at hreadies
        have hshort := hlines.short
        have hnext : (w.expected + 1) % 2 ^ 64 = w.expected + 1 := Nat.mod_eq_of_lt (by omega)
        refine ⟨{ expected := w.expected + 1, assembler }, ?_, rfl, ?_⟩
        · simp only [Bool.not_true, hfirst, hnext]
          rfl
        · exact ⟨⟨quiet, hreadies, fun r hr => hnone r (List.mem_cons_of_mem _ hr)⟩, h.terminal⟩
    · cases hquiet

/-- A history leaves `Wait` waiting or gives it the answer. -/
theorem Awaits.rows (hlines : Lines id lines) {last : Option Nat} {frames : List (Option Json)}
    (hd : Delivery id lines last frames) :
    ∀ {w : Waiter}, w.Awaits env lines answer →
      (w.expected = 0 ∨ ∃ p, last = some p ∧ p < w.expected) →
      (∃ w', w.rows env id frames = .ok w' ∧ w'.Awaits env lines answer) ∨
        w.rows env id frames = .error (.answered answer) := by
  induction hd with
  | nil => exact fun h _ => .inl ⟨_, rfl, h⟩
  | foreign hframe _ ih =>
    intro w h hlast
    rw [Waiter.rows, row_foreign hframe]
    exact ih h hlast
  | @line last n frames hn hnext _ ih =>
    intro w h hlast
    rw [Waiter.rows]
    by_cases hexpected : n = w.expected
    · subst hexpected
      rcases h.row_next hlines hn with hanswer | ⟨w', hrow, hmore, h'⟩
      · rw [hanswer]
        exact .inr rfl
      · rw [hrow]
        exact ih h' (.inr ⟨_, rfl, by omega⟩)
    · have hold : n < w.expected ∨ w.expected = 0 ∧ n ≠ 0 := by
        rcases hlast with hzero | ⟨p, rfl, hp⟩
        · exact .inr ⟨hzero, by omega⟩
        · rcases hnext with rfl | ⟨q, hq, hnext⟩
          · exact .inl (by omega)
          · cases hq
            exact .inl (by omega)
      rw [row_repeated hlines hn hold]
      refine ih h ?_
      rcases hold with hlt | ⟨hzero, -⟩
      · exact .inr ⟨n, rfl, hlt⟩
      · exact .inl hzero

/-- The lines from one on that is not after the next give the answer. -/
theorem Awaits.rows_drop (hlines : Lines id lines) : ∀ (n k : Nat) {w : Waiter},
    k + n = lines.length → k ≤ w.expected → w.Awaits env lines answer →
      w.rows env id ((lines.drop k).map some) = .error (.answered answer) := by
  intro n
  induction n with
  | zero =>
    intro k w hk hle h
    have := h.lt
    omega
  | succ n ih =>
    intro k w hk hle h
    have hlt : k < lines.length := by omega
    rw [List.drop_eq_getElem_cons hlt, List.map_cons, Waiter.rows]
    rcases hle.lt_or_eq with hold | rfl
    · rw [row_repeated hlines hlt (.inl hold)]
      exact ih (k + 1) (by omega) hold h
    · rcases h.row_next hlines hlt with hanswer | ⟨w', hrow, hmore, h'⟩
      · rw [hanswer]
        rfl
      · rw [hrow]
        exact ih (w.expected + 1) (by omega) hmore.ge h'

end

end Waiter

/-! ## Any response -/

/-- The assembler takes a frame or finds it invalid. -/
theorem accept_status (env : Env) (a : Assembler) (frame : Json) :
    (a.accept env frame).1 = Assembler.invalid ∨ (a.accept env frame).1 = {} := by
  rcases Assembler.accept_cases env a frame with h | ⟨-, h⟩ | ⟨-, f, -, h⟩
  · rw [h]
    exact .inl rfl
  · rw [h]
    exact .inr rfl
  · rw [h]
    unfold Assembler.acceptFragment
    dsimp only
    repeat' split
    all_goals first
      | exact .inl rfl
      | exact .inr rfl

/-- How `Wait` fails at a gap. -/
def gap : Except Verdict Waiter := .error (.failed "Response gap detected; replay the request")

section

variable {env : Env} {id : Bytes} {lines : List Json} {w : Waiter} {n : Nat}

/-- `Wait` has taken the first lines, each once and in order. -/
structure Waiter.Took (env : Env) (id : Bytes) (lines : List Json) (n : Nat) (w : Waiter) : Prop where
  rows : Waiter.rows env id {} ((lines.take n).map some) = .ok w
  expected : w.expected = n

/-- The next line is taken after those before it. -/
theorem Waiter.Took.rows_next (h : w.Took env id lines n) (hn : n < lines.length) :
    Waiter.rows env id {} ((lines.take (n + 1)).map some) = w.row env id (some lines[n]) := by
  rw [List.take_succ_eq_append_getElem hn, List.map_append, Waiter.rows_append, h.rows]
  change (w.row env id (some lines[n])).bind (Waiter.rows env id · []) = _
  cases w.row env id (some lines[n]) with
  | error verdict => rfl
  | ok w' => rfl

/-- The line that is next is taken, or ends the wait. -/
theorem Waiter.Took.row_next (h : w.Took env id lines n) (hlines : Lines id lines)
    (hshort : lines.length < 2 ^ 64) (hn : n < lines.length) :
    (∃ w', w.row env id (some lines[n]) = .ok w' ∧ w'.Took env id lines (n + 1)) ∨
      ∃ verdict, w.row env id (some lines[n]) = .error verdict ∧
        .error verdict ≠ gap := by
  have hrows := h.rows_next hn
  have hrow := @Waiter.row_line env id lines w hlines n hn
  rw [h.expected, if_neg (fun hgap => absurd hgap.1 (lt_irrefl n)), if_pos rfl] at hrow
  have hstatus := accept_status env w.assembler lines[n]
  cases haccept : w.assembler.accept env lines[n] with
  | mk status after =>
    obtain ⟨ready, assembler⟩ := after
    rw [haccept] at hrow hstatus
    dsimp only at hrow hstatus
    rcases hstatus with rfl | rfl
    · refine .inr ⟨_, hrow, fun heq => ?_⟩
      injection heq with heq
      injection heq with heq
      exact absurd heq (by decide)
    · cases hready : ready.any isTerminal with
      | true =>
        rw [hready] at hrow
        refine .inr ⟨_, hrow, fun heq => ?_⟩
        injection heq with heq
        cases heq
      | false =>
        rw [hready] at hrow
        have hnext : (n + 1) % 2 ^ 64 = n + 1 := Nat.mod_eq_of_lt (by omega)
        rw [hnext] at hrow
        refine .inl ⟨_, hrow, hrows.trans hrow, rfl⟩

/-- What `Wait` does from a line on is what it does on some of the lines in order. -/
theorem Waiter.Took.rows_delivery (hlines : Lines id lines) (hshort : lines.length < 2 ^ 64)
    {last : Option Nat} {frames : List (Option Json)} (hd : Delivery id lines last frames) :
    ∀ {n : Nat} {w : Waiter}, w.Took env id lines n → n ≤ lines.length →
      (n = 0 ∨ ∃ p, last = some p ∧ p < n) →
      ∃ m ≤ lines.length, w.rows env id frames =
          Waiter.rows env id {} ((lines.take m).map some) ∧ w.rows env id frames ≠ gap := by
  induction hd with
  | nil => exact fun {n w} h hn _ => ⟨n, hn, h.rows.symm, fun heq => by cases heq⟩
  | foreign hframe _ ih =>
    intro n w h hn hlast
    rw [Waiter.rows, Waiter.row_foreign hframe]
    exact ih h hn hlast
  | @line last k frames hk hnext _ ih =>
    intro n w h hn hlast
    rw [Waiter.rows]
    by_cases hexpected : k = n
    · subst hexpected
      rcases h.row_next hlines hshort hk with ⟨w', hrow, h'⟩ | ⟨verdict, hrow, hne⟩
      · rw [hrow]
        exact ih h' hk (.inr ⟨k, rfl, Nat.lt_succ_self k⟩)
      · refine ⟨k + 1, hk, ?_, ?_⟩
        · rw [h.rows_next hk, hrow]
          rfl
        · rw [hrow]
          exact hne
    · have hold : k < n ∨ n = 0 ∧ k ≠ 0 := by
        rcases hlast with hzero | ⟨p, rfl, hp⟩
        · exact .inr ⟨hzero, by omega⟩
        · rcases hnext with rfl | ⟨q, hq, hnext⟩
          · exact .inl (by omega)
          · cases hq
            exact .inl (by omega)
      rw [Waiter.row_repeated hlines hk (by rw [h.expected]; exact hold)]
      refine ih h hn ?_
      rcases hold with hlt | ⟨hzero, -⟩
      · exact .inr ⟨k, rfl, hlt⟩
      · exact .inl hzero

/-- **The lines in order.** In every history of a response `Wait` does what it does on its first
lines, each once and in order, and it never finds a gap. -/
theorem wait_in_order (hlines : Lines id lines) (hshort : lines.length < 2 ^ 64)
    {last : Option Nat} {frames : List (Option Json)} (hd : Delivery id lines last frames) :
    ∃ m ≤ lines.length, Waiter.rows env id {} frames =
        Waiter.rows env id {} ((lines.take m).map some) ∧
      Waiter.rows env id {} frames ≠ gap :=
  Waiter.Took.rows_delivery hlines hshort hd (n := 0) ⟨rfl, rfl⟩ (Nat.zero_le _) (.inl rfl)

end

/-- Two lines of a response. -/
def sampleLines : List Json := numbered 0 [Spool.chunk "r1" .null, Spool.complete "r1" 1 1]

/-- The first line, the second, and the response once more. -/
theorem wait_in_order_twice : ∃ m ≤ sampleLines.length,
    Waiter.rows Env.plain "r1" {} ((sampleLines ++ sampleLines).map some) =
        Waiter.rows Env.plain "r1" {} ((sampleLines.take m).map some) ∧
      Waiter.rows Env.plain "r1" {} ((sampleLines ++ sampleLines).map some) ≠ gap := by
  have hlines : Lines "r1" sampleLines := by
    refine { names := fun line hline => ?_, seq := fun n hn => ?_, short := by decide }
    · refine names_numbered (fun f hf => ?_) line hline
      rcases List.mem_cons.1 hf with rfl | hf
      · exact ⟨rfl, rfl⟩
      · exact List.mem_singleton.1 hf ▸ ⟨rfl, rfl⟩
    · rcases n with _ | _ | n
      · rfl
      · rfl
      · exact absurd (show n + 2 < 2 from hn) (by omega)
  have hd : Delivery "r1" sampleLines none ((sampleLines ++ sampleLines).map some) :=
    .line (n := 0) (by decide) (.inl rfl) (.line (n := 1) (by decide) (.inr ⟨0, rfl, .inr rfl⟩)
      (.line (n := 0) (by decide) (.inl rfl) (.line (n := 1) (by decide) (.inr ⟨0, rfl, .inr rfl⟩)
        .nil)))
  exact wait_in_order hlines (by decide) hd

/-! ## Responses of a spool -/

/-- Numbered lines are in order. -/
theorem lines_of_numbers {id : Bytes} {lines : List Json} (h : Numbers id lines) :
    Lines id lines := by
  obtain ⟨fs, hnames, hlength, rfl⟩ := h
  have hobjects : ∀ f ∈ fs, f.isObject = true := fun f hf => (hnames f hf).1
  refine { names := fun line hline => ?_, seq := fun n hn => ?_, short := by simpa using hlength }
  · obtain ⟨f, hf, rfl⟩ := List.mem_map.1 hline
    obtain ⟨hobj, hid⟩ := names_numbered hnames f hf
    obtain ⟨m, rfl⟩ := Json.isObject_iff.1 hobj
    exact ⟨rfl, by rw [Json.get?_norm, hid]; rfl⟩
  · rw [List.getElem_map, Json.get?_norm, Spool.getElem_numbered hobjects, Nat.zero_add]
    rfl

/-- A client that waits for these lines gets this answer: whatever comes, it waits or has it, and
it has it once the lines were published from the first to the last. -/
def Answers (env : Env) (id : Bytes) (lines : List Json) (answer : Json) : Prop :=
  ∀ last rows, Delivery id lines last rows →
    ((∃ w, Waiter.rows env id {} rows = .ok w) ∨
        Waiter.rows env id {} rows = .error (.answered answer)) ∧
      Waiter.rows env id {} (rows ++ lines.map some) = .error (.answered answer)

/-- What the client waits for is the answer. -/
theorem answers_of_awaits {env : Env} {id : Bytes} {lines : List Json} {answer : Json}
    (hlines : Lines id lines) (h : Waiter.Awaits env lines answer {}) :
    Answers env id lines answer := by
  intro last rows hrows
  rw [Waiter.rows_append]
  rcases h.rows hlines hrows (.inl rfl) with ⟨w, hw, h'⟩ | hanswer
  · rw [hw]
    exact ⟨.inl ⟨w, rfl⟩, h'.rows_drop hlines lines.length 0 (Nat.zero_add _) (Nat.zero_le _)⟩
  · rw [hanswer]
    exact ⟨.inr rfl, rfl⟩

/-- The number of a frame does not make it the last. -/
theorem isTerminal_set_seq (frame seq : Json) :
    isTerminal (frame.set "seq" seq) = isTerminal frame := by
  rw [isTerminal, isTerminal, Json.get?_set_of_ne (by decide)]

/-- Reports of frames that do not end a response do not end it. -/
theorem quiet_reports {frames : List Json} :
    ∀ {seq : Nat}, (∀ frame ∈ frames, isTerminal frame.norm = false) →
      ∀ ready ∈ Assembler.reports seq frames, ready.any isTerminal = false := by
  induction frames with
  | nil => exact fun _ _ hready => absurd hready List.not_mem_nil
  | cons frame frames ih =>
    intro seq h ready hready
    rw [Assembler.reports, List.mem_append, List.mem_append] at hready
    rcases hready with (hnone | hone) | hrest
    · rw [List.eq_of_mem_replicate hnone]
      rfl
    · rw [List.mem_singleton.1 hone, Option.any_some, isTerminal_set_seq]
      exact h frame List.mem_cons_self
    · exact ih (fun f hf => h f (List.mem_cons_of_mem _ hf)) ready hrest

section

variable {env : Env} {id : Bytes} {limit : Nat}

open Spool

/-- The client of a response without items gets its only frame. -/
theorem wait_single (hid : isIdText id = true) (hlimit : limit < 2 ^ 64) {frame : Json}
    (hframe : Assembler.Logical env id frame) (hnames : Names id frame)
    (hterminal : isTerminal frame.norm = true)
    (hwrite : ((create id limit).writeRecord env frame).1 = true) :
    ∃ lines, readFrames env ((create id limit).single env frame).2.file = some lines ∧
      Answers env id lines (frame.norm.set "seq" (.uint (Assembler.lineCount frame - 1))) := by
  obtain ⟨lines, -, hread, hnumbers, haccept⟩ := accept_single hid hlimit hframe hnames hwrite
  refine ⟨lines, hread, answers_of_awaits (lines_of_numbers hnumbers)
    ⟨⟨List.replicate (Assembler.lineCount frame - 1) none, ?_, ?_⟩, ?_⟩⟩
  · rw [Assembler.reports, Assembler.reports, List.append_nil, Nat.zero_add] at haccept
    exact haccept
  · intro ready hready
    rw [List.eq_of_mem_replicate hready]
    rfl
  · rw [isTerminal_set_seq, hterminal]

/-- **Waiting for a response.** What a client of a dump waits for ends with the frame that counts
its items, and what a client of a `Single` response waits for is that response: in no history of
its lines does `Wait` fail, and it has the answer once the lines were published from the first to
the last. -/
theorem wait_spooled (hid : isIdText id = true) (hlimit : limit < 2 ^ 64) :
    (∀ items : List Json, (∀ item ∈ items, item.Good env.strtod ∧ item.depth ≤ 30) →
      (∀ ok ∈ (addAll env (create id limit) items).1, ok = true) →
      ∃ lines, readFrames env ((addAll env (create id limit) items).2.finish {}).2.file =
          some lines ∧
        Answers env id lines (completeFrame id (lines.length - 1) items.length)) ∧
    ∀ frame : Json,
      (∃ value, frame = result id value ∧ value.Good env.strtod ∧ value.depth ≤ 30) ∨
        (∃ status, frame = error id status ∧ Utf8.Valid status.code ∧
          Utf8.Valid status.message) →
      ((create id limit).writeRecord env frame).1 = true →
      ∃ lines, readFrames env ((create id limit).single env frame).2.file = some lines ∧
        Answers env id lines
          (frame.norm.set "seq" (.uint (Assembler.lineCount frame - 1))) := by
  have hvalid := valid_of_isIdText hid
  refine ⟨fun items hitems hadd => ?_, fun frame hframe hwrite => ?_⟩
  · obtain ⟨lines, -, hread, hnumbers, haccept⟩ := accept_dump hid hlimit hitems hadd
    refine ⟨lines, hread,
      answers_of_awaits (lines_of_numbers hnumbers) ⟨⟨_, haccept, quiet_reports ?_⟩, rfl⟩⟩
    intro frame hframe
    obtain ⟨item, -, rfl⟩ := List.mem_map.1 hframe
    rfl
  · rcases hframe with ⟨value, rfl, hgood, hdepth⟩ | ⟨status, rfl, hcode, hmessage⟩
    · exact wait_single hid hlimit (Assembler.logical_result hvalid hgood hdepth)
        (names_result id value) rfl hwrite
    · exact wait_single hid hlimit (Assembler.logical_error hvalid hcode hmessage)
        (names_error id status) rfl hwrite

/-- A dump of two items and a result, on the default limit. -/
theorem wait_spooled_two_items :
    (∃ lines, readFrames Env.plain ((addAll Env.plain (create "r1") [.null, .uint 7]).2.finish
        {}).2.file = some lines ∧
      Answers Env.plain "r1" lines (completeFrame "r1" (lines.length - 1) 2)) ∧
    ∃ lines, readFrames Env.plain ((create "r1").single Env.plain
        (result "r1" (.uint 7))).2.file = some lines ∧
      Answers Env.plain "r1" lines ((result "r1" (.uint 7)).norm.set "seq"
        (.uint (Assembler.lineCount (result "r1" (.uint 7)) - 1))) := by
  have h := @wait_spooled Env.plain "r1" Limits.spoolBytes (by decide) (by decide)
  refine ⟨?_, ?_⟩
  · exact h.1 [.null, .uint 7] (by simp [Json.Good, Json.depth]) (by decide +kernel)
  · exact h.2 (result "r1" (.uint 7)) (.inl ⟨_, rfl, by simp [Json.Good], by simp [Json.depth]⟩)
      (by decide +kernel)

end

end VppJson
