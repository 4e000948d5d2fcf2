import RowCodec.Diagnostic
import RowCodec.Json.Layout

/-!
# Diagnostics as JSON

Each report of a chain is an object, with the rest of the chain under `cause`.
-/

namespace RowCodec

namespace ReportColumn

def toJson (c : ReportColumn) : Json :=
  Json.ofMembers [("name", Json.ofText c.name), ("type", c.type.toJson)]

def ofJson? : Nat → Json → Option ReportColumn
  | 0, _ => none
  | depth + 1, j => do
    match ← Json.fields? ["name", "type"] j with
    | [name, type] =>
      return { name := ← Json.required Json.toText? name
               type := ← Json.required (ColumnType.ofJson? depth) type }
    | _ => none

end ReportColumn

/-- A report, with what caused it already written. -/
def Report.toJson (r : Report) (cause : Json) : Json :=
  Json.ofMembers
    [("code", Json.ofText r.code), ("message", Json.ofText r.message),
     ("column", Json.ofOption ReportColumn.toJson r.column),
     ("label", Json.ofOption Json.ofText r.label), ("help", Json.ofOption Json.ofText r.help),
     ("notes", .array (r.notes.map Json.ofText)), ("cause", cause)]

namespace Diagnostic

/-- A chain of reports. -/
def chainJson (r : Report) : List Report → Json
  | [] => r.toJson .null
  | cause :: rest => r.toJson (chainJson cause rest)

def toJson (d : Diagnostic) : Json := chainJson d.report d.causes

def ofJson? : Nat → Json → Option Diagnostic
  | 0, _ => none
  | depth + 1, j => do
    match ← Json.fields? ["code", "message", "column", "label", "help", "notes", "cause"] j with
    | [code, message, column, label, help, notes, cause] =>
      let report : Report :=
        { code := ← Json.required Json.toText? code
          message := ← Json.required Json.toText? message
          column := ← Json.optional (ReportColumn.ofJson? depth) column
          label := ← Json.optional Json.toText? label
          help := ← Json.optional Json.toText? help
          notes := ← Json.required (Json.toList? (fun _ => Json.toText?) depth) notes }
      match ← Json.optional (ofJson? depth) cause with
      | none => return ⟨report, []⟩
      | some cause => return ⟨report, cause.report :: cause.causes⟩
    | _ => none

/-- The diagnostic that a JSON text stands for. -/
def parse? (text : String) : Option Diagnostic :=
  (Json.parse? false text).bind (ofJson? Json.maxDepth)

end Diagnostic

end RowCodec
