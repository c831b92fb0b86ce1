import Lisplet.Diagnostic

/-! Reports as capped lists. However a report is put together, by diagnostics and by whole reports that
are themselves put together so, it stores the first diagnostics that it was given and counts all of
them. It is determined by the list of what it was given, and so is its text. -/

namespace Lisplet

namespace Report

/-- The report of these diagnostics. -/
def capped (ds : List Diagnostic) : Report := ⟨ds.take capacity, ds.length⟩

theorem empty_eq_capped : empty = capped [] := rfl

theorem push_capped (ds : List Diagnostic) (d : Diagnostic) :
    (capped ds).push d = capped (ds ++ [d]) := by
  have hcount : (ds ++ [d]).length = ds.length + 1 := List.length_append
  by_cases h : ds.length < capacity
  · have hall : ds.take capacity = ds := List.take_of_length_le (Nat.le_of_lt h)
    have hmore : (ds ++ [d]).take capacity = ds ++ [d] :=
      List.take_of_length_le (by rw [hcount]; exact h)
    have hroom : (capped ds).errors.length < capacity := by rwa [capped, hall]
    rw [push, if_pos hroom, capped, capped, hmore, hcount, hall]
  · -- A full report only counts.
    have hfull : capacity ≤ ds.length := Nat.not_lt.mp h
    have hmore : (ds ++ [d]).take capacity = ds.take capacity := List.take_append_of_le_length hfull
    have hroom : ¬(capped ds).errors.length < capacity := by
      rw [capped, List.length_take_of_le hfull]
      exact Nat.lt_irrefl _
    rw [push, if_neg hroom, capped, capped, hmore, hcount]

theorem foldl_push_capped (ds es : List Diagnostic) :
    es.foldl push (capped ds) = capped (ds ++ es) := by
  induction es generalizing ds with
  | nil => rw [List.foldl_nil, List.append_nil]
  | cons e rest ih =>
    rw [List.foldl_cons, push_capped, ih, List.append_assoc, List.singleton_append]

theorem ofList_eq_capped (ds : List Diagnostic) : ofList ds = capped ds := foldl_push_capped [] ds

theorem hidden_capped (ds : List Diagnostic) : (capped ds).hidden = ds.length - capacity := by
  simp only [hidden, capped, List.length_take]
  omega

/-- What the other report does not store is too far behind to be stored here. -/
theorem extend_capped (ds es : List Diagnostic) :
    (capped ds).extend (capped es) = capped (ds ++ es) := by
  have hstored : (ds ++ es.take capacity).take capacity = (ds ++ es).take capacity := by
    rw [List.take_append, List.take_append, List.take_take, Nat.min_eq_left (Nat.sub_le _ _)]
  have hcount : (ds ++ es.take capacity).length + (es.length - capacity) = (ds ++ es).length := by
    simp only [List.length_append, List.length_take]
    omega
  have hpushed : (capped es).errors.foldl push (capped ds) = capped (ds ++ es.take capacity) :=
    foldl_push_capped ds _
  rw [extend, hpushed, hidden_capped]
  simp only [capped, hstored, hcount]

/-- A line for each of the first diagnostics, and a line that counts the others if there are any. -/
def lines (ds : List Diagnostic) : List String :=
  (ds.take capacity).map (fun d => s!"{d.file}:{d.text}") ++
    if capacity < ds.length then [s!"... and {ds.length - capacity} more"] else []

theorem text_capped (ds : List Diagnostic) : (capped ds).text = "\n".intercalate (lines ds) := by
  rw [text, hidden_capped, lines]
  by_cases h : capacity < ds.length
  · -- Something is stored, so the line feed before the count ends a line.
    have hne : (ds.take capacity).map (fun d => s!"{d.file}:{d.text}") ≠ [] := by
      apply List.ne_nil_of_length_pos
      rw [List.length_map, List.length_take_of_le (Nat.le_of_lt h)]
      decide
    rw [if_pos h, if_pos (Nat.sub_pos_of_lt h), String.intercalate_append_of_ne_nil hne (by simp),
      String.intercalate_singleton]
    simp only [capped, String.append_assoc]
    rfl
  · rw [if_neg h, if_neg (by omega), List.append_nil, String.append_empty]
    rfl

end Report

/-- How a report is put together. -/
inductive Collection where
  | empty
  | push (before : Collection) (d : Diagnostic)
  | extend (before other : Collection)

namespace Collection

def report : Collection → Report
  | .empty => .empty
  | .push before d => before.report.push d
  | .extend before other => before.report.extend other.report

/-- All diagnostics that were pushed, from left to right. -/
def pushed : Collection → List Diagnostic
  | .empty => []
  | .push before d => before.pushed ++ [d]
  | .extend before other => before.pushed ++ other.pushed

theorem report_eq_capped (c : Collection) : c.report = .capped c.pushed := by
  induction c with
  | empty => exact Report.empty_eq_capped
  | push before d ih => rw [report, pushed, ih, Report.push_capped]
  | extend before other ih ih' => rw [report, pushed, ih, ih', Report.extend_capped]

/-- A report stores the first twenty of what was pushed and counts all, so what it counts is never less
than what it stores. How reports are grouped does not matter, an empty one adds nothing, and the text
shows what was pushed and nothing else. -/
theorem report_determined_by_pushed (a b c : Collection) :
    a.report.errors = a.pushed.take 20 ∧ a.report.total = a.pushed.length ∧
    (a.report.isFull = true ↔ 20 ≤ a.pushed.length) ∧
    a.report.errors.length ≤ a.report.total ∧
    (a.report.extend b.report).extend c.report = a.report.extend (b.report.extend c.report) ∧
    a.report.extend .empty = a.report ∧ Report.empty.extend a.report = a.report ∧
    a.report.text = "\n".intercalate (Report.lines a.pushed) := by
  simp only [report_eq_capped, Report.empty_eq_capped, Report.extend_capped]
  refine ⟨rfl, rfl, ?_, ?_, ?_, ?_, rfl, Report.text_capped _⟩
  · exact decide_eq_true_iff
  · exact List.length_take_le' _ _
  · rw [List.append_assoc]
  · rw [List.append_nil]

end Collection

end Lisplet
