import Mathlib
import LoxLang.Proofs.Loops.Session
import LoxLang.Proofs.Run.Printing

/-!
# Proofs/Run/Capacity — a sink that is full ends the run

A sink with a capacity takes as many bytes as there is room for, and a print that does not fit is a
fault. A run into such a sink is compared with the run into a sink that takes everything. As long as
what is printed fits, the two do the same. At the first print that does not fit, the one stops:
nothing on the way out of loops, blocks, calls and constructors catches the fault or prints. The
other one goes on, but it only adds output (`Machine.Appends`), so what the sink holds stays the
beginning of that output.

This is a property of the steps of evaluators (`closed_heeds`), and so of every evaluator, if the
functions of the host leave the sink alone (`Host.SinkBlind`). The main result is
`Session.run_withRoom`.
-/

namespace LoxLang

open EStateM (Result)
open Machine (Appends steady_appends)

theorem extract_of_size_le {bytes : ByteArray} {n : Nat} (h : bytes.size ≤ n) :
    bytes.extract 0 n = bytes := by
  rw [← Nat.max_eq_left h, ByteArray.extract_zero_max_size]

/-! ## Writing in pieces

A line is handed to the sink in pieces, and a sink may take less of a piece than it is offered. -/

namespace Sink

variable {s : Sink} {bytes : ByteArray}

/-- The sink holds no more than it takes. -/
def Sound (s : Sink) : Prop :=
  ∀ capacity ∈ s.capacity, s.written.size ≤ capacity

/-- What a sink does not take is what is left behind what it takes. -/
theorem accepted_append_rest (s : Sink) (bytes : ByteArray) :
    s.accepted bytes ++ bytes.extract (s.accepted bytes).size bytes.size = bytes := by
  obtain ⟨written, _ | capacity⟩ := s
  · simp [accepted]
  · simp only [accepted, ByteArray.size_extract, Nat.sub_zero]
    generalize capacity - written.size = room
    rcases Nat.le_total room bytes.size with hle | hle
    · rw [Nat.min_eq_left hle, ByteArray.extract_append_extract, Nat.min_eq_left (Nat.zero_le _),
        Nat.max_eq_right hle, ByteArray.extract_zero_size]
    · rw [Nat.min_eq_right hle, ByteArray.extract_same, ByteArray.append_empty,
        extract_of_size_le hle]

/-- Writes all of `bytes`, each time as much as the sink takes, until it takes none. -/
def writeAll (s : Sink) (bytes : ByteArray) : Sink × Bool :=
  if bytes.size = 0 then (s, true)
  else if (s.accepted bytes).size = 0 then (s, false)
  else (s.write bytes).writeAll (bytes.extract (s.accepted bytes).size bytes.size)
termination_by bytes.size
decreasing_by
  rw [ByteArray.size_extract]
  omega

/-- Writes one piece behind the other, up to the first that cannot be written. -/
def writePieces (s : Sink) : List ByteArray → Sink × Bool
  | [] => (s, true)
  | piece :: pieces =>
    match s.writeAll piece with
    | (s, true) => s.writePieces pieces
    | (s, false) => (s, false)

/-- A sink that takes nothing of a text stays as it is. -/
theorem write_of_accepted_eq_empty (h : s.accepted bytes = .empty) : s.write bytes = s := by
  rw [write, h, ByteArray.append_empty]

theorem write_empty (s : Sink) : s.write .empty = s := by
  refine write_of_accepted_eq_empty ?_
  obtain ⟨written, _ | capacity⟩ := s
  · rfl
  · exact ByteArray.extract_eq_empty_iff.mpr (Nat.min_le_right _ _)

/-- **Writing two texts one behind the other is writing the whole**: the sink takes as much of it.
-/
theorem write_append (s : Sink) (a b : ByteArray) : s.write (a ++ b) = (s.write a).write b := by
  obtain ⟨written, _ | capacity⟩ := s
  · simp only [write, accepted, ByteArray.append_assoc]
  · have hroom : capacity - (written.size + min (capacity - written.size) a.size) =
        capacity - written.size - a.size := by omega
    simp only [write, accepted, ByteArray.extract_append, ByteArray.size_append,
      ByteArray.size_extract, ByteArray.append_assoc, Nat.zero_sub, Nat.sub_zero, hroom]

/-- A sink takes the whole if it takes the first text, and then the second. -/
theorem takes_append (s : Sink) (a b : ByteArray) :
    s.takes (a ++ b) = (s.takes a && (s.write a).takes b) := by
  obtain ⟨written, _ | capacity⟩ := s
  · rfl
  · rw [Bool.eq_iff_iff]
    simp only [takes, write, accepted, ByteArray.size_append, ByteArray.size_extract,
      decide_eq_true_eq, Bool.and_eq_true]
    omega

/-- Behind a text that did not fit nothing more is taken. -/
theorem write_of_not_takes {a : ByteArray} (h : s.takes a = false) (b : ByteArray) :
    s.write (a ++ b) = s.write a := by
  rw [write_append]
  refine write_of_accepted_eq_empty ?_
  obtain ⟨written, _ | capacity⟩ := s
  · cases h
  · simp only [takes, decide_eq_false_iff_not] at h
    simp only [write, accepted, ByteArray.extract_eq_empty_iff, ByteArray.size_append,
      ByteArray.size_extract]
    omega

namespace Sound

/-- A sink never holds more than it takes. -/
theorem write (h : s.Sound) (bytes : ByteArray) : (s.write bytes).Sound := by
  intro capacity hcapacity
  obtain ⟨written, _ | capacity⟩ := s
  · cases hcapacity
  · cases hcapacity
    have hle : written.size ≤ capacity := h capacity rfl
    simp only [Sink.write, accepted, ByteArray.size_append, ByteArray.size_extract]
    omega

/-- What a sink accepts of a text it takes in one piece. -/
theorem takes_accepted (h : s.Sound) (bytes : ByteArray) : s.takes (s.accepted bytes) = true := by
  obtain ⟨written, _ | capacity⟩ := s
  · rfl
  · have hle : written.size ≤ capacity := h capacity rfl
    simp only [takes, accepted, ByteArray.size_extract, decide_eq_true_eq]
    omega

theorem takes_empty (h : s.Sound) : s.takes .empty = true := by
  obtain ⟨written, _ | capacity⟩ := s
  · rfl
  · exact decide_eq_true (h capacity rfl)

/-- To write all that is taken of a text, and then all of the rest, is to write the text. -/
theorem writeAll_eq (h : s.Sound) : s.writeAll bytes = (s.write bytes, s.takes bytes) := by
  fun_induction writeAll s bytes with
  | case1 s bytes hempty =>
    obtain rfl := ByteArray.size_eq_zero_iff.mp hempty
    rw [write_empty, h.takes_empty]
  | case2 s bytes hempty hnone =>
    have hrefused : s.takes bytes = false := by
      refine Bool.eq_false_iff.mpr fun htakes => hempty ?_
      rwa [accepted_of_takes htakes] at hnone
    rw [write_of_accepted_eq_empty (ByteArray.size_eq_zero_iff.mp hnone), hrefused]
  | case3 s bytes _ _ ih =>
    let rest := bytes.extract (s.accepted bytes).size bytes.size
    have htaken : s.write (s.accepted bytes) = s.write bytes := by
      rw [Sink.write, accepted_of_takes (h.takes_accepted bytes), Sink.write]
    have hwrite : s.write bytes = (s.write bytes).write rest := by
      conv_lhs => rw [← accepted_append_rest s bytes, write_append, htaken]
    have htakes : s.takes bytes = (s.write bytes).takes rest := by
      conv_lhs =>
        rw [← accepted_append_rest s bytes, takes_append, h.takes_accepted, Bool.true_and, htaken]
    rw [ih (h.write bytes), ← hwrite, ← htakes]

/-- **A text is written like its pieces**, however it is cut into them. -/
theorem writePieces_eq {pieces : List ByteArray} (h : s.Sound) :
    s.writePieces pieces =
      (s.write (pieces.foldr (· ++ ·) .empty), s.takes (pieces.foldr (· ++ ·) .empty)) := by
  induction pieces generalizing s with
  | nil => rw [writePieces, List.foldr_nil, write_empty, h.takes_empty]
  | cons piece pieces ih =>
    rw [writePieces, h.writeAll_eq, List.foldr_cons, takes_append]
    cases htakes : s.takes piece with
    | true => rw [write_append, Bool.true_and, ← ih (h.write piece)]
    | false => rw [write_of_not_takes htakes, Bool.false_and]

end Sound

/-- The sink that takes `limit` bytes in all, and was written to like this one. -/
def cut (limit : Nat) (s : Sink) : Sink :=
  ⟨s.written.extract 0 limit, some limit⟩

theorem cut_of_le {limit : Nat} (h : s.written.size ≤ limit) :
    s.cut limit = ⟨s.written, some limit⟩ := by
  rw [cut, extract_of_size_le h]

/-- What is added behind the limit makes no difference. -/
theorem cut_append {limit : Nat} (h : limit ≤ s.written.size) {s' : Sink} {more : ByteArray}
    (hmore : s'.written = s.written ++ more) : s'.cut limit = s.cut limit := by
  have hnone : more.extract (0 - s.written.size) (limit - s.written.size) = .empty := by
    rw [ByteArray.extract_eq_empty_iff]
    omega
  rw [cut, cut, hmore, ByteArray.extract_append, hnone, ByteArray.append_empty]

/-- Writing to a sink with a limit is writing without, and then cutting. -/
theorem cut_write {limit : Nat} (h : s.capacity = none) (bytes : ByteArray) :
    (s.cut limit).write bytes = (s.write bytes).cut limit := by
  obtain ⟨written, _ | capacity⟩ := s
  · have hroom : limit - min limit written.size = limit - written.size := by omega
    simp only [cut, write, accepted, ByteArray.extract_append, ByteArray.size_extract,
      Nat.zero_sub, Nat.sub_zero, hroom]
  · cases h

end Sink

/-- Prints a text in pieces. -/
def Eval.printPieces (pieces : List ByteArray) : Eval Unit := fun m =>
  match m.sink.writePieces pieces with
  | (sink, true) => .ok () { m with sink }
  | (sink, false) => .error (.fault .output) { m with sink }

/-- A line is printed like its pieces. -/
theorem Eval.printLine_eq_printPieces {line : String} {pieces : List ByteArray}
    (hpieces : pieces.foldr (· ++ ·) .empty = (line ++ "\n").toUTF8) {m : Machine}
    (h : m.sink.Sound) : Eval.printLine line m = Eval.printPieces pieces m := by
  rw [Eval.printPieces, h.writePieces_eq, hpieces, Eval.printLine]
  cases m.sink.takes (line ++ "\n").toUTF8 <;> rfl

/-! ## Steps under a limit -/

namespace Machine

/-- The machine with a sink that takes `limit` bytes in all. -/
def cut (limit : Nat) (m : Machine) : Machine :=
  { m with sink := m.sink.cut limit }

/-- The sink takes everything, and does not hold more than `limit` bytes yet. -/
structure Fits (limit : Nat) (m : Machine) : Prop where
  capacity : m.sink.capacity = none
  size : m.sink.written.size ≤ limit

end Machine

section

variable {α β : Type} {limit : Nat}

/-- The outcome of a computation, and the outcome that it has with a sink of `limit` bytes. -/
inductive Cuts (limit : Nat) : Result Stop Machine α → Result Stop Machine α → Prop
  | kept (out : Result Stop Machine α) (h : (endOf out).Fits limit) :
      Cuts limit out (withSink ((endOf out).sink.cut limit) out)
  | full {out : Result Stop Machine α} {m : Machine} (h : limit < (endOf out).sink.written.size)
      (hsink : m.sink = (endOf out).sink.cut limit) : Cuts limit out (.error (.fault .output) m)

/-- Where the sink is full, output that is added does not count. -/
theorem Cuts.full_of_appends {out : Result Stop Machine α} {later : Result Stop Machine β}
    {m : Machine} (h : limit < (endOf out).sink.written.size)
    (hsink : m.sink = (endOf out).sink.cut limit) (hmore : (endOf out).Appends (endOf later)) :
    Cuts limit later (.error (.fault .output) m) := by
  obtain ⟨more, hmore⟩ := hmore
  refine .full ?_ (hsink.trans (Sink.cut_append (Nat.le_of_lt h) hmore).symm)
  rw [hmore, ByteArray.size_append]
  omega

/-- **The computation heeds a limit on the output**: with it, it does the same, or stops where the
sink is full. -/
structure Eval.Heeds (limit : Nat) (x : Eval α) : Prop where
  appends : x.Keeps Appends
  cuts : ∀ {m : Machine}, m.Fits limit → Cuts limit (x m) (x (m.cut limit))

namespace Eval

/-- A computation that does not look at the sink leaves it alone. -/
theorem SinkBlind.sink_eq {x : Eval α} (h : x.SinkBlind) (m : Machine) :
    (endOf (x m)).sink = m.sink := by
  rw [show x m = withSink m.sink (x m) from h m m.sink]
  cases x m <;> rfl

namespace Heeds

variable {x : Eval α}

/-- What leaves the sink alone does the same with any limit. -/
theorem of_sinkBlind (h : x.SinkBlind) : x.Heeds limit where
  appends m := ⟨.empty, by rw [h.sink_eq, ByteArray.append_empty]⟩
  cuts {m} hm := by
    have hsink := h.sink_eq m
    rw [show x (m.cut limit) = withSink (m.sink.cut limit) (x m) from h m _, ← hsink]
    exact .kept _ ⟨hsink ▸ hm.capacity, hsink ▸ hm.size⟩

/-- Computations one behind the other: the second starts with what room the first has left. -/
theorem bind {f : α → Eval β} (hx : x.Heeds limit) (hf : ∀ a, (f a).Heeds limit) :
    (x >>= f).Heeds limit where
  appends := hx.appends.bind steady_appends fun a => (hf a).appends
  cuts {m} hm := by
    have hcuts := hx.cuts hm
    change Cuts limit (EStateM.bind x f m) (EStateM.bind x f (m.cut limit))
    unfold EStateM.bind
    generalize x m = out, x (m.cut limit) = out' at hcuts
    cases hcuts with
    | kept h =>
      cases out with
      | ok a m' => exact (hf a).cuts h
      | error stop m' => exact .kept _ h
    | full h hsink =>
      refine .full_of_appends h hsink ?_
      cases out with
      | ok a m' => exact (hf a).appends m'
      | error stop m' => exact steady_appends.refl m'

/-- A computation may look at its machine, but not at the sink. -/
theorem read {f : Machine → Eval α} (hblind : ∀ m sink, f { m with sink } = f m)
    (hf : ∀ m, (f m).Heeds limit) : (get >>= f).Heeds limit where
  appends := .get_bind fun m => (hf m).appends
  cuts {m} hm := by
    change Cuts limit (f m m) (f (m.cut limit) (m.cut limit))
    rw [show f (m.cut limit) = f m from hblind m _]
    exact (hf m).cuts hm

/-- Running in another frame does not touch the sink. -/
theorem inFrame (r : FrameRef) (hx : x.Heeds limit) : (Eval.inFrame r x).Heeds limit where
  appends := hx.appends.inFrame steady_appends r
  cuts {m} hm := by
    have hcuts : Cuts limit (x { m with scope := r }) (x { m.cut limit with scope := r }) :=
      hx.cuts (m := { m with scope := r }) ⟨hm.capacity, hm.size⟩
    unfold Eval.inFrame
    dsimp only
    generalize x { m with scope := r } = out, x { m.cut limit with scope := r } = out' at hcuts
    cases hcuts with
    | kept h => cases out <;> exact .kept _ ⟨h.capacity, h.size⟩
    | full h hsink => cases out <;> exact .full h hsink

/-- The one step that can fail for want of room. -/
theorem printLine (line : String) : (Eval.printLine line).Heeds limit where
  appends := .printLine steady_appends line
  cuts {m} hm := by
    let bytes := (line ++ "\n").toUTF8
    have hfree : Eval.printLine line m = .ok () { m with sink := m.sink.write bytes } := by
      rw [Eval.printLine, Sink.takes, hm.capacity]
      rfl
    have hwritten : (m.sink.write bytes).written.size = m.sink.written.size + bytes.size := by
      rw [Sink.write, Sink.accepted, hm.capacity, ByteArray.size_append]
    have hcut : (m.cut limit).sink.takes bytes =
        decide (m.sink.written.size + bytes.size ≤ limit) := by
      rw [Machine.cut, Sink.cut_of_le hm.size, Sink.takes]
    rw [hfree]
    unfold Eval.printLine
    dsimp only
    rw [hcut, Machine.cut, Sink.cut_write hm.capacity]
    split
    · next hroom =>
      exact .kept (.ok () { m with sink := m.sink.write bytes })
        ⟨hm.capacity, hwritten ▸ of_decide_eq_true hroom⟩
    · next hroom =>
      refine .full ?_ rfl
      have hsize := of_decide_eq_false (Bool.eq_false_iff.mpr hroom)
      change limit < (m.sink.write bytes).written.size
      omega

end Heeds

end Eval

/-- **To heed a limit is a property of the steps of evaluators.** -/
theorem closed_heeds (limit : Nat) : Eval.Closed fun x => x.Heeds limit where
  pure _ := .of_sinkBlind fun _ _ => rfl
  throw _ := .of_sinkBlind fun _ _ => rfl
  bind hx hf := hx.bind hf
  read hblind hf := .read hblind hf
  writes hx := .of_sinkBlind hx.blind
  printLine := .printLine
  inFrame := .inFrame

end

/-! ## Programs -/

/-- **The functions of the host leave the sink alone.** -/
def Host.SinkBlind (host : Host) : Prop :=
  ∀ entry n arguments, (host entry (evaluate host n) arguments).SinkBlind

/-- A program heeds a limit if the functions of the host leave the sink alone. -/
theorem heeds_executeProgram {host : Host} (hhost : host.SinkBlind) (limit n : Nat)
    (ss : List Stmt) : (executeProgram host n ss).Heeds limit := by
  have hat := closedAt (closed_heeds limit)
    (fun n _ entry arguments => .of_sinkBlind (hhost entry n arguments)) n
  have happends := Loops.keeps_executeProgram fun s => (hat.execute s).appends
  refine ⟨happends ss, ?_⟩
  induction ss with
  | nil => exact fun hm => .kept _ hm
  | cons s ss ih =>
    intro m hm
    have hcuts := (hat.execute s).cuts hm
    rw [executeProgram_cons, executeProgram_cons]
    generalize execute host n s m = out, execute host n s (m.cut limit) = out' at hcuts
    cases hcuts with
    | kept h =>
      cases out with
      | ok flow m' => exact ih h
      | error stop m' =>
        exact .kept (.error stop { m' with scope := m'.globals }) ⟨h.capacity, h.size⟩
    | full h hsink =>
      refine .full_of_appends h hsink ?_
      cases out with
      | ok flow m' => exact happends ss m'
      | error stop m' => exact steady_appends.refl m'

namespace Library

/-- The library without the function that evaluates a source text, which may print. -/
def plainHost (readings : Nat → Float) : Host := fun entry =>
  if entry = "evalsrc" then fun _ _ => return .error "no such host function"
  else host readings entry

/-- The functions of the library do not print, but for the one that evaluates a text. -/
theorem sinkBlind_host (readings : Nat → Float) {entry : String} (hentry : entry ≠ "evalsrc")
    (evaluate : Expr → Eval Value) (arguments : List Value) :
    (host readings entry evaluate arguments).SinkBlind := by
  unfold host
  split
  case h_10 => exact absurd rfl hentry
  all_goals exact fun _ _ => rfl

/-- Without that one the library leaves the sink alone. -/
theorem sinkBlind (readings : Nat → Float) : (plainHost readings).SinkBlind := by
  intro entry n arguments
  unfold plainHost
  split
  · exact fun _ _ => rfl
  · next hentry => exact sinkBlind_host readings hentry _ arguments

end Library

/-! ## Sessions -/

namespace Session

/-- The session with room for so many more bytes in its sink, or for any number. -/
def withRoom (room : Option Nat) (s : Session) : Session :=
  { s with machine := { s.machine with sink := ⟨s.output, room.map (s.output.size + ·)⟩ } }

variable {s : Session} {source : String} {room : Nat}

/-- A limit does not matter to what is done before the program runs. -/
theorem prepared_withRoom :
    (s.withRoom (some room)).prepared source =
      ((s.withRoom none).prepared source).cut (s.output.size + room) := by
  have hsink : Sink.cut (s.output.size + room) ⟨s.output, none⟩ =
      ⟨s.output, some (s.output.size + room)⟩ := Sink.cut_of_le (Nat.le_add_right _ _)
  rw [Machine.cut, show ((s.withRoom none).prepared source).sink = ⟨s.output, none⟩ from rfl, hsink]
  rfl

/-- A session whose sink takes so many bytes in all has room for those that were not written. -/
theorem withRoom_eq_cut {m : Machine} {more : ByteArray}
    (hmore : m.sink.written = s.output ++ more) (hfits : more.size ≤ room) :
    (⟨m, s.recover⟩ : Session).withRoom (some (room - more.size)) =
      ⟨m.cut (s.output.size + room), s.recover⟩ := by
  have hsize : m.sink.written.size = s.output.size + more.size := by
    rw [hmore, ByteArray.size_append]
  have hlimit : m.sink.written.size + (room - more.size) = s.output.size + room := by omega
  rw [Machine.cut, Sink.cut_of_le (by omega), ← hlimit]
  rfl

/-- A text that is refused is reported with the faults that were found in it. -/
theorem report_of_refused {host : Host} {fuel : Nat}
    (h : ¬ (s.found source = [] ∨ s.recover = true)) :
    (s.run host fuel source).1 = ⟨some .staticError, s.found source⟩ := by
  have hrefused : (!(s.found source).isEmpty && !s.recover) = true := by
    simpa using h
  unfold run
  simp only [found, read] at hrefused
  rw [if_pos hrefused]
  rfl

/-- What is refused is refused whatever the sink takes. -/
theorem report_withRoom_of_not_executes {host : Host} {fuel : Nat} (h : ¬ s.Executes source)
    (room : Option Nat) :
    ((s.withRoom room).run host fuel source).1 = (s.run host fuel source).1 := by
  by_cases hread : s.found source = [] ∨ s.recover = true
  · have hfaults : (resolve (s.read source).statements).faults.isEmpty = false :=
      List.isEmpty_eq_false_iff.mpr fun hclean => h ⟨hread, hclean⟩
    rw [run_eq_runStatements host fuel hread,
      run_eq_runStatements (s := s.withRoom room) host fuel hread]
    change (runStatements _ _ _ (s.found source) (s.read source).statements _).1 = _
    simp only [runStatements, hfaults]
    rfl
  · rw [report_of_refused hread]
    exact report_of_refused (s := s.withRoom room) hread

/-- A run that executes its program ends as that does. -/
theorem run_eq_finished (host : Host) (fuel : Nat) (h : s.Executes source) :
    s.run host fuel source = s.finished (s.found source)
      (executeProgram host fuel (s.read source).statements (s.prepared source)) := by
  rw [run_eq_runStatements host fuel h.1, runStatements_of_clean host fuel _ h.2]
  rfl

/-- However a program ends, the session has the machine that it ended on. -/
theorem session_finished (found : List Diagnostic) (out : Result Stop Machine Unit) :
    (s.finished found out).2 = ⟨endOf out, s.recover⟩ := by
  rcases out with _ | ⟨_ | _, _⟩ <;> rfl

/-- The report does not tell what is in the sink. -/
theorem report_finished_withSink (found : List Diagnostic) (sink : Sink)
    (out : Result Stop Machine Unit) :
    (s.finished found (withSink sink out)).1 = (s.finished found out).1 := by
  rcases out with _ | ⟨_ | _, _⟩ <;> rfl

section

variable {found : List Diagnostic} {out out' : Result Stop Machine Unit} {more : ByteArray}

/-- If all that is printed fits, the limit changes nothing. -/
theorem finished_of_fits (hcuts : Cuts (s.output.size + room) out out')
    (hmore : (endOf out).sink.written = s.output ++ more) (hfits : more.size ≤ room) :
    (s.finished found out').1 = (s.finished found out).1 ∧
      (s.finished found out').2 = (s.finished found out).2.withRoom (some (room - more.size)) := by
  cases hcuts with
  | kept h =>
    refine ⟨report_finished_withSink found _ out, ?_⟩
    rw [session_finished, session_finished, withRoom_eq_cut hmore hfits]
    cases out <;> rfl
  | full h hsink =>
    rw [hmore, ByteArray.size_append] at h
    omega

/-- If not all fits, the run ends with a fault of the output, and has printed what fits. -/
theorem finished_of_full (hcuts : Cuts (s.output.size + room) out out')
    (hmore : (endOf out).sink.written = s.output ++ more) (hfull : room < more.size) :
    (s.finished found out').1 = ⟨some .runtimeError, found ++ [.output]⟩ ∧
      (s.finished found out').2.machine.sink =
        ⟨s.output ++ more.extract 0 room, some (s.output.size + room)⟩ := by
  cases hcuts with
  | kept h =>
    have hsize := h.size
    rw [hmore, ByteArray.size_append] at hsize
    omega
  | full h hsink =>
    refine ⟨rfl, hsink.trans ?_⟩
    rw [Sink.cut, hmore, ByteArray.extract_append, extract_of_size_le (Nat.le_add_right _ _),
      Nat.zero_sub, Nat.add_sub_cancel_left]

end

/-- **A sink that is full ends the run at the right byte.** A session runs the same text with `room`
for more bytes in its sink and with room for any number. If all that is printed fits, the two runs
come to the same. If not — also if the other run goes on for ever: the fuel is arbitrary — the run
ends with the fault of the sink behind those found in reading, at line 0, and the sink holds the
first `room` bytes of the output. It makes no difference in which pieces a line is written. -/
theorem run_withRoom {host : Host} (hhost : host.SinkBlind) (fuel : Nat) (s : Session)
    (source : String) (room : Nat) :
    let free := (s.withRoom none).run host fuel source
    let limited := (s.withRoom (some room)).run host fuel source
    (∃ more : ByteArray, free.2.output = s.output ++ more ∧
      (more.size ≤ room →
        limited.1 = free.1 ∧ limited.2 = free.2.withRoom (some (room - more.size))) ∧
      (room < more.size →
        limited.1 = ⟨some .runtimeError, s.found source ++ [.output]⟩ ∧
        limited.2.machine.sink =
          ⟨s.output ++ more.extract 0 room, some (s.output.size + room)⟩ ∧
        (s.recover = true ∨ s.found source = []) ∧ Diagnostic.output.line = 0)) ∧
    ∀ (m : Machine) (line : String) (pieces : List ByteArray), m.sink.Sound →
      pieces.foldr (· ++ ·) .empty = (line ++ "\n").toUTF8 →
      Eval.printLine line m = Eval.printPieces pieces m := by
  intro free limited
  refine ⟨?_, fun m line pieces h hpieces => Eval.printLine_eq_printPieces hpieces h⟩
  by_cases h : s.Executes source
  · let limit := s.output.size + room
    let m := (s.withRoom none).prepared source
    have hheeds := heeds_executeProgram hhost limit fuel (s.read source).statements
    obtain ⟨more, hmore⟩ := hheeds.appends m
    -- The limited run is the free one, cut off where the sink is full.
    have hcuts := hheeds.cuts (m := m) ⟨rfl, Nat.le_add_right _ _⟩
    have hfree : free = s.finished (s.found source) _ :=
      run_eq_finished host fuel (s := s.withRoom none) h
    have hlimited : limited = s.finished (s.found source) _ :=
      run_eq_finished host fuel (s := s.withRoom (some room)) h
    rw [prepared_withRoom] at hlimited
    rw [hfree, hlimited]
    refine ⟨more, (output_finished _ _).trans hmore, finished_of_fits hcuts hmore, fun hfull => ?_⟩
    obtain ⟨hreport, hsink⟩ := finished_of_full hcuts hmore hfull
    exact ⟨hreport, hsink, h.1.symm, rfl⟩
  · have hfree : free.2 = _ :=
      (run_of_not_executes host fuel (s := s.withRoom none) h).2
    have hlimited : limited.2 = _ :=
      (run_of_not_executes host fuel (s := s.withRoom (some room)) h).2
    refine ⟨.empty, ?_, fun _ => ⟨?_, ?_⟩, fun hfull => absurd hfull (Nat.not_lt_zero room)⟩
    · rw [hfree, ByteArray.append_empty]
      rfl
    · exact (report_withRoom_of_not_executes h _).trans
        (report_withRoom_of_not_executes h none).symm
    · rw [hfree, hlimited]
      rfl

/-- The constructor prints for ever; the sink is full between a text and the end of its line. -/
theorem run_withRoom_endless :
    let host := Library.plainHost fun _ => 0
    let s := Session.start true none
    let source := "class A \x7b init() \x7b for (;;) \x7b print \"ab\"; \x7d \x7d \x7d var; A();"
    let free := (s.withRoom none).run host 40 source
    let limited := (s.withRoom (some 5)).run host 40 source
    host.SinkBlind ∧ s.found source ≠ [] ∧ free.1.status = none ∧
      limited.1 = ⟨some .runtimeError, s.found source ++ [.output]⟩ ∧
      limited.2.output = "ab\nab".toUTF8 := by
  intro host s source free limited
  have hhost : host.SinkBlind := Library.sinkBlind _
  obtain ⟨more, hmore, -, hfull⟩ := (run_withRoom hhost 40 s source 5).1
  rw [show s.output = .empty from rfl, ByteArray.empty_append] at hmore
  subst hmore
  obtain ⟨hreport, hsink, -⟩ := hfull (by decide +kernel)
  refine ⟨hhost, by decide +kernel, by decide +kernel, hreport, ?_⟩
  rw [output, hsink, show s.output = .empty from rfl, ByteArray.empty_append]
  decide +kernel

end Session

end LoxLang
