import StoreAudit.Command.Messages
import StoreAudit.Proofs.Correlation.Observe
import StoreAudit.Proofs.Log.Detection
import StoreAudit.Proofs.Stats.Traffic
import StoreAudit.Proofs.Text.Lines

/-! The statistics and the audit of one message log, of which only the statistics are strict. -/
namespace StoreAudit

namespace LogLine

def isPassthrough : LogLine → Bool
  | .passthrough _ => true
  | _ => false

def message? : LogLine → Option Message
  | .message m => some m
  | _ => none

theorem isPassthrough_eq_false_of_common? {text : String} {common : LogLine}
    (h : common? text = some common) : common.isPassthrough = false := by
  unfold common? at h
  split_ifs at h
  · cases h
    rfl
  · cases h
    rfl
  · obtain ⟨mark, -, rfl⟩ := Option.map_eq_some_iff.mp h
    rfl

end LogLine

namespace MessageReader
variable {r : MessageReader}

/-- The reader at the same place that passes no line through. -/
def strictly (r : MessageReader) : MessageReader := { r with policy := .strict }

/-- A line that would be passed through is refused, and every other line is read as it would be. -/
theorem read_strictly (hr : r.policy = .bestEffort) (line : String) :
    (∃ l : LogLine, (r.read line).1 = .ok l ∧ l.isPassthrough = false ∧
      r.strictly.read line = (.ok l, (r.read line).2.strictly)) ∨
    ∃ (l : LogLine) (e : ParseError), (r.read line).1 = .ok l ∧ l.isPassthrough ∧
      (r.strictly.read line).1 = .error e ∧ e.line = r.line + 1 := by
  cases hcommon : LogLine.common? (LogLine.content line) with
  | some common =>
    left
    refine ⟨common, ?_, LogLine.isPassthrough_eq_false_of_common? hcommon, ?_⟩
    · rw [read_of_common hcommon]
    · rw [read_of_common hcommon, read_of_common hcommon]
      rfl
  | none =>
    cases hparse : r.parse (LogLine.content line) with
    | ok found =>
      obtain ⟨m, d⟩ := found
      have hstrict : r.strictly.parse (LogLine.content line) = .ok (m, d) := hparse
      left
      refine ⟨.message m, ?_, rfl, ?_⟩
      · rw [read_of_parse_ok hcommon hparse]
      · rw [read_of_parse_ok hcommon hparse, read_of_parse_ok hcommon hstrict]
        rfl
    | error e =>
      have hstrict : r.strictly.parse (LogLine.content line) = .error e := hparse
      right
      refine ⟨.passthrough (LogLine.content line), { e with line := r.line + 1 }, ?_, rfl, ?_, rfl⟩
      · simp only [read, hcommon, hparse, hr]
      · simp only [read, hcommon, hstrict]
        rfl

end MessageReader

namespace Command
open MessageReader

/-- What is echoed of a line, where `c` has taken in the messages before it: the line itself unless it
is a message, of a message the anomaly, and after an unexpected message the line too. -/
def echoOf (c : Correlator) (line : String) : LogLine → List String
  | .message m =>
    match c.anomaly? m with
    | none => []
    | some (.unexpectedMessage name id time) =>
      [(Anomaly.unexpectedMessage name id time).render, line]
    | some a => [a.render]
  | _ => [line]

/-- What is echoed of lines that were classified as `classified`. -/
def echo (c : Correlator) (lines : List String) (classified : List LogLine) : List String :=
  ((lines.zip classified).mapIdx fun i (line, l) =>
    echoOf (c.observeAll ((classified.take i).filterMap LogLine.message?)) line l).flatten

theorem echo_cons (c : Correlator) (line : String) (lines : List String) (l : LogLine)
    (classified : List LogLine) : echo c (line :: lines) (l :: classified) =
      echoOf c line l ++ echo (c.observeAll l.message?.toList) lines classified := by
  have hmessages (i : Nat) : c.observeAll (((l :: classified).take (i + 1)).filterMap
      LogLine.message?) = (c.observeAll l.message?.toList).observeAll
        ((classified.take i).filterMap LogLine.message?) := by
    rw [List.take_succ_cons, List.filterMap_cons, Correlator.observeAll, Correlator.observeAll,
      Correlator.observeAll, ← List.foldl_append]
    cases l.message? <;> rfl
  rw [echo, List.zip_cons_cons, List.mapIdx_cons, List.flatten_cons]
  simp only [hmessages]
  rfl

namespace MessageRun
variable {run : MessageRun}

/-- The run at the same place in which every line has to be of a known kind. -/
def strictly (run : MessageRun) : MessageRun := { run with reader := run.reader.strictly }

theorem observe_snd (run : MessageRun) (line : String) (l : LogLine) :
    (run.observe line l).2 = echoOf run.correlator line l := by
  cases l with
  | message m =>
    cases hanomaly : run.correlator.anomaly? m with
    | none => simp only [observe, echoOf, Correlator.observe_snd, hanomaly]
    | some a => cases a <;> simp only [observe, echoOf, Correlator.observe_snd, hanomaly]
  | _ => rfl

theorem observe_fst (run : MessageRun) (line : String) (l : LogLine) :
    (run.observe line l).1.reader = run.reader ∧
      (run.observe line l).1.correlator = run.correlator.observeAll l.message?.toList := by
  cases l <;> exact ⟨rfl, rfl⟩

/-- The run after one more line, which was classified as `l`. -/
def after (run : MessageRun) (line : String) (l : LogLine) : MessageRun :=
  ({ run with reader := (run.reader.read line).2 }.observe line l).1

theorem reader_after (run : MessageRun) (line : String) (l : LogLine) :
    (run.after line l).reader = (run.reader.read line).2 := by
  rw [after]
  generalize (run.reader.read line).2 = reader
  exact (observe_fst _ line l).1

theorem correlator_after (run : MessageRun) (line : String) (l : LogLine) :
    (run.after line l).correlator = run.correlator.observeAll l.message?.toList :=
  (observe_fst _ line l).2

theorem after_strictly {line : String} {l : LogLine}
    (h : (run.strictly.reader.read line).2 = (run.reader.read line).2.strictly) :
    run.strictly.after line l = (run.after line l).strictly := by
  rw [after, h, after]
  generalize (run.reader.read line).2 = reader
  cases l <;> rfl

theorem follow_of_ok {line : String} {l : LogLine} (h : (run.reader.read line).1 = .ok l)
    (rest : List (Option String)) : run.follow (some line :: rest) =
      (echoOf run.correlator line l ++ ((run.after line l).follow rest).1,
        ((run.after line l).follow rest).2) := by
  have hecho (reader : MessageReader) := observe_snd { run with reader } line l
  rw [follow, after]
  generalize run.reader.read line = read at h ⊢
  obtain ⟨answer, reader⟩ := read
  obtain rfl : answer = .ok l := h
  simp only [hecho]

theorem follow_of_error {line : String} {e : ParseError} (h : (run.reader.read line).1 = .error e)
    (rest : List (Option String)) : run.follow (some line :: rest) = ([], .error (.parse e)) := by
  rw [follow]
  generalize run.reader.read line = read at h ⊢
  obtain ⟨answer, reader⟩ := read
  obtain rfl : answer = .error e := h
  rfl

/-- A strict run goes along with the one that passes lines through, up to the first line that is
passed through. -/
theorem follow_strictly (hr : run.reader.policy = .bestEffort) (lines : List String) :
    ∃ (classified : List LogLine) (final : MessageRun),
      (run.reader.readAll lines).1 = classified.map .ok ∧
      (run.follow (lines.map some)).2 = .ok final ∧
      match classified.findIdx? LogLine.isPassthrough with
      | none => (run.strictly.follow (lines.map some)).2 = .ok final.strictly
      | some n =>
        (run.strictly.follow (lines.map some)).1 =
          echo run.correlator (lines.take n) (classified.take n) ∧
        ∃ e : ParseError, (run.strictly.follow (lines.map some)).2 = .error (.parse e) ∧
          e.line = run.reader.line + n + 1 := by
  induction lines generalizing run with
  | nil => exact ⟨[], run, rfl, rfl, rfl⟩
  | cons line lines ih =>
    have hnext (l : LogLine) : (run.after line l).reader.policy = .bestEffort := by
      rw [reader_after, read_snd]
      exact hr
    rcases read_strictly hr line with ⟨l, hread, hkept, hstrict⟩ | ⟨l, e, hread, hpassed, he, hline⟩
    · obtain ⟨classified, final, hclassified, hfinal, hends⟩ := ih (hnext l)
      refine ⟨l :: classified, final, ?_, ?_, ?_⟩
      · rw [readAll_cons, hread, List.map_cons, ← hclassified, reader_after run line l]
      · rw [List.map_cons, follow_of_ok hread, hfinal]
      · have hplace : (run.after line l).reader.line = run.reader.line + 1 := by
          rw [reader_after, read_snd]
        have hread' : run.strictly.reader.read line = (.ok l, (run.reader.read line).2.strictly) :=
          hstrict
        have hok : (run.strictly.reader.read line).1 = .ok l := by rw [hread']
        have hafter : run.strictly.after line l = (run.after line l).strictly :=
          after_strictly (by rw [hread'])
        rw [List.map_cons, follow_of_ok hok, hafter, List.findIdx?_cons, hkept,
          if_neg Bool.false_ne_true]
        cases hfirst : classified.findIdx? LogLine.isPassthrough with
        | none =>
          rw [hfirst] at hends
          exact hends
        | some n =>
          rw [hfirst] at hends
          obtain ⟨hout, e, he, hline⟩ := hends
          refine ⟨?_, e, he, ?_⟩
          · rw [hout, List.take_succ_cons, List.take_succ_cons, echo_cons, correlator_after]
            rfl
          · rw [hline, hplace]
            show run.reader.line + 1 + n + 1 = run.reader.line + (n + 1) + 1
            omega
    -- The strict run is over here, but the other one goes on.
    · obtain ⟨classified, final, hclassified, hfinal, -⟩ := ih (hnext l)
      refine ⟨l :: classified, final, ?_, ?_, ?_⟩
      · rw [readAll_cons, hread, List.map_cons, ← hclassified, reader_after run line l]
      · rw [List.map_cons, follow_of_ok hread, hfinal]
      · have hfirst : (l :: classified).findIdx? LogLine.isPassthrough = some 0 := by
          rw [List.findIdx?_cons, hpassed, if_pos rfl]
        have herror : (run.strictly.reader.read line).1 = .error e := he
        rw [hfirst, List.map_cons, follow_of_error herror]
        exact ⟨rfl, e, rfl, hline⟩

end MessageRun

section Ends
variable (dialect? : Option Dialect) (matchVersion json : Bool) (log : ByteArray)

theorem result_stats : (stats dialect? json log).result = (MessageRun.follow
    { reader := { dialect?, policy := .strict } } (Text.lines log)).2.map MessageReport.ofRun := by
  rw [stats]
  generalize MessageRun.follow _ _ = followed
  obtain ⟨echo, end?⟩ := followed
  cases end? <;> rfl

theorem out_stats_of_error {e : Failure} (h : (stats dialect? json log).result = .error e) :
    (stats dialect? json log).out = if json then "" else unlines (MessageRun.follow
      { reader := { dialect?, policy := .strict } } (Text.lines log)).1 := by
  rw [stats] at h ⊢
  generalize MessageRun.follow _ _ = followed at h ⊢
  obtain ⟨echo, end?⟩ := followed
  cases end? with
  | ok run => cases h
  | error e => rfl

theorem result_oracle : (oracle dialect? matchVersion json log).result = (MessageRun.follow
    { reader := { dialect? } } (Text.lines log)).2.map (OracleReport.ofRun · matchVersion) := by
  rw [oracle]
  generalize (MessageRun.follow _ _).2 = end?
  cases end? <;> rfl

end Ends

section Builds
variable {α : Type} {r : Run α} {completes : α → Bool}

theorem Run.inBuild?_of_ok {a : α} (h : r.result = .ok a) :
    r.inBuild? completes = if completes a then some r else none := by
  rw [inBuild?, h]

theorem Run.inBuild?_of_error {e : Failure} (h : r.result = .error e) :
    r.inBuild? completes = some r := by
  rw [inBuild?, h]

theorem MessageReport.completesIn_iff {b : Build} {json : Bool} {r : MessageReport} :
    r.completesIn b json ↔ b = .wrapping ∨ r.traffic.Representable json := by
  rw [completesIn, Bool.and_eq_true, Bool.or_eq_true, Traffic.summedIn_iff, Traffic.printedIn_iff]
  simp only [Build.not_stops_iff]
  constructor
  · rintro ⟨hsums, hprinted⟩
    refine or_iff_not_imp_left.mpr fun hb => ⟨fun a => (hsums a).resolve_left hb, fun hjson a => ?_⟩
    have hlines := hprinted.resolve_left (hjson ▸ Bool.false_ne_true)
    exact (hlines a).resolve_left hb
  · rintro (hb | hfits)
    · exact ⟨fun _ => .inl hb, .inr fun _ => .inl hb⟩
    · refine ⟨fun a => .inr (hfits.latencies_lt a), ?_⟩
      cases json with
      | true => exact .inl rfl
      | false => exact .inr fun a => .inr (hfits.errors_lt rfl a)

end Builds

end Command
end StoreAudit
