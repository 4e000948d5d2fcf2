import RowCodec.ColumnType

/-!
# Diagnostics

A failure as it is reported: a stable code that programs match on, and text for people.

* `Report` is one failure, with the column it concerns, a label, a help text and notes.
* `Diagnostic` is a report with the chain of reports that caused it, outermost first. Keeping the
  chain as a list makes the innermost report (`rootCause`) and the text one fold each.
* `Diagnostic.text` is the whole chain, one item a line.
-/

namespace RowCodec

/-- The column a report is about. -/
structure ReportColumn where
  name : String
  type : ColumnType
deriving DecidableEq, Repr

/-- One failure. -/
structure Report where
  /-- The stable code of the kind of failure. -/
  code : String
  message : String
  column : Option ReportColumn
  label : Option String
  help : Option String
  notes : List String
deriving DecidableEq, Repr

/-- A failure and what caused it. -/
structure Diagnostic where
  report : Report
  /-- The cause, the cause of the cause, and so on. -/
  causes : List Report
deriving DecidableEq, Repr

namespace Report

/-- The lines of a report. -/
def lines (r : Report) : List String :=
  [r.code ++ ": " ++ r.message]
    ++ (r.column.toList.map fun c => "  column: " ++ c.name ++ " (" ++ c.type.text ++ ")")
    ++ (r.label.toList.map ("  label: " ++ ·))
    ++ (r.help.toList.map ("  help: " ++ ·))
    ++ r.notes.map ("  note: " ++ ·)

/-- The text of a report without what caused it. -/
def text (r : Report) : String := "\n".intercalate r.lines

end Report

namespace Diagnostic

/-- A failure of which only code and message are known. -/
def new (code message : String) : Diagnostic :=
  ⟨⟨code, message, none, none, none, []⟩, []⟩

def withColumn (d : Diagnostic) (column : ReportColumn) : Diagnostic :=
  { d with report := { d.report with column := some column } }

def withLabel (d : Diagnostic) (label : String) : Diagnostic :=
  { d with report := { d.report with label := some label } }

def withHelp (d : Diagnostic) (help : String) : Diagnostic :=
  { d with report := { d.report with help := some help } }

/-- The diagnostic with one more note, after those it has. -/
def withNote (d : Diagnostic) (note : String) : Diagnostic :=
  { d with report := { d.report with notes := d.report.notes ++ [note] } }

/-- The diagnostic with `cause` as what caused it, in place of any earlier cause. -/
def withCause (d cause : Diagnostic) : Diagnostic :=
  { d with causes := cause.report :: cause.causes }

/-- The diagnostic with another message. -/
def withMessage (d : Diagnostic) (message : String) : Diagnostic :=
  { d with report := { d.report with message } }

/-- The code of the outermost report. -/
def code (d : Diagnostic) : String := d.report.code

/-- The innermost report of the chain. -/
def rootCause (d : Diagnostic) : Report := d.causes.getLast?.getD d.report

/-- The text of the whole chain. -/
def text (d : Diagnostic) : String :=
  "\ncaused by: ".intercalate ((d.report :: d.causes).map Report.text)

end Diagnostic

end RowCodec
