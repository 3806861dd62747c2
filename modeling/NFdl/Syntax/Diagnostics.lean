import NFdl.Lib.Json

/-!
# Diagnostics

A diagnostic has a severity, a stable code, a message and a span of bytes of the
source. Diagnostics are written as a SARIF document with the lines and columns of
their spans. The document is JSON, and every diagnostic can be read back from it.
-/

namespace Diag

open Json (Reads Spells separated objectOf objectText arrayText fieldText reads_objectText
  readsField_cons reads_field)

inductive Severity where
  | error | warning | note
deriving DecidableEq, Repr

/-- A half-open range of bytes of the source. -/
structure Span where
  start : ℕ
  stop : ℕ
deriving DecidableEq, Repr

namespace Span

def new (start stop : ℕ) : Span := ⟨start, max stop start⟩

def unknown : Span := ⟨0, 0⟩

end Span

structure Diagnostic where
  severity : Severity
  code : String
  message : String
  span : Span
deriving DecidableEq, Repr

def Diagnostic.error (code message : String) (span : Span) : Diagnostic :=
  ⟨.error, code, message, span⟩

/-- The line and the column of a byte of the source, both counted from one. -/
def lineCol (src : String) (byteOff : ℕ) : ℕ × ℕ :=
  let bytes := src.toByteArray.data.toList
  (bytes.take (min byteOff bytes.length)).foldl
    (fun at_ b => if b = '\n'.toUInt8 then (at_.1 + 1, 1) else (at_.1, at_.2 + 1)) (1, 1)

/-- The bytes before the one that is meant are whole lines and the beginning of another. -/
theorem lineCol_eq (src : String) (byteOff : ℕ) :
    ∃ lines col, src.toByteArray.data.toList.take byteOff = lines ++ col ∧
      (lines = [] ∨ lines.getLast? = some '\n'.toUInt8) ∧ '\n'.toUInt8 ∉ col ∧
      lineCol src byteOff = (lines.count '\n'.toUInt8 + 1, col.length + 1) := by
  have hfold : ∀ bytes : List UInt8, ∃ lines col, bytes = lines ++ col ∧
      (lines = [] ∨ lines.getLast? = some '\n'.toUInt8) ∧ '\n'.toUInt8 ∉ col ∧
      bytes.foldl (fun at_ b => if b = '\n'.toUInt8 then (at_.1 + 1, 1) else (at_.1, at_.2 + 1))
        (1, 1) = (lines.count '\n'.toUInt8 + 1, col.length + 1) := by
    intro bytes
    induction bytes using List.reverseRecOn with
    | nil => exact ⟨[], [], rfl, .inl rfl, List.not_mem_nil, rfl⟩
    | append_singleton bytes b ih =>
        obtain ⟨lines, col, hsplit, hlines, hcol, hfold⟩ := ih
        rw [List.foldl_append, hfold]
        by_cases hb : b = '\n'.toUInt8
        · refine ⟨bytes ++ [b], [], (List.append_nil _).symm, .inr ?_, List.not_mem_nil, ?_⟩
          · rw [List.getLast?_concat, hb]
          · have hnone : col.count '\n'.toUInt8 = 0 := List.count_eq_zero_of_not_mem hcol
            simp only [List.foldl_cons, List.foldl_nil, hsplit, hb, List.count_append,
              List.count_singleton_self, hnone, List.length_nil]
            rfl
        · refine ⟨lines, col ++ [b], by rw [hsplit, List.append_assoc], hlines, ?_, ?_⟩
          · rw [List.mem_append, List.mem_singleton, not_or]
            exact ⟨hcol, fun h => hb h.symm⟩
          · simp only [List.foldl_cons, List.foldl_nil, if_neg hb, List.length_append,
              List.length_singleton]
  obtain ⟨lines, col, hsplit, hlines, hcol, hfold⟩ :=
    hfold (src.toByteArray.data.toList.take byteOff)
  refine ⟨lines, col, hsplit, hlines, hcol, ?_⟩
  rw [← hfold]
  unfold lineCol
  dsimp only
  rw [← List.take_eq_take_min]

/-! ### SARIF -/

def sarifSchemaUrl : String := "https://json.schemastore.org/sarif-2.1.0.json"

def defaultToolName : String := "nfdl"

structure SarifOptions where
  toolName : String := defaultToolName

def sarifLevel : Severity → String
  | .error => "error"
  | .warning => "warning"
  | .note => "note"

/-- Each severity has a level of its own. -/
theorem sarifLevel_injective : ∀ s t, sarifLevel s = sarifLevel t → s = t := by
  intro s t
  cases s <;> cases t <;> decide

/-- A character of a JSON string. -/
def escapeJson (ch : Char) : List Char :=
  match ch with
  | '"' => "\\\"".toList
  | '\\' => "\\\\".toList
  | '\u0008' => "\\b".toList
  | '\u000c' => "\\f".toList
  | '\n' => "\\n".toList
  | '\r' => "\\r".toList
  | '\t' => "\\t".toList
  | c =>
      if c ≤ '\u001f' then "\\u".toList ++ List.leftpad 4 '0' (Nat.toDigits 16 c.toNat) else [c]

def pushJsonString (s : String) : List Char := '"' :: s.toList.flatMap escapeJson ++ ['"']

def writeLocation (src uri : String) (span : Span) : List Char :=
  let start := lineCol src span.start
  let stop := lineCol src span.stop
  "\x7b".toList ++ "\"physicalLocation\":\x7b".toList ++ "\"artifactLocation\":\x7b\"uri\":".toList ++
    pushJsonString uri ++ "\x7d,\"region\":\x7b".toList ++
    ("\"startLine\":".toList ++ Nat.toDigits 10 start.1 ++
      ",\"startColumn\":".toList ++ Nat.toDigits 10 start.2 ++
      ",\"endLine\":".toList ++ Nat.toDigits 10 stop.1 ++
      ",\"endColumn\":".toList ++ Nat.toDigits 10 stop.2) ++
    "\x7d\x7d\x7d".toList

def writeResult (src uri : String) (d : Diagnostic) : List Char :=
  "\x7b".toList ++ "\"ruleId\":".toList ++ pushJsonString d.code ++ ",".toList ++
    "\"level\":".toList ++ pushJsonString (sarifLevel d.severity) ++ ",".toList ++
    "\"message\":\x7b\"text\":".toList ++ pushJsonString d.message ++ "\x7d,".toList ++
    "\"locations\":[".toList ++ writeLocation src uri d.span ++ "]\x7d".toList

def toSarifWithOptions (diags : List Diagnostic) (src uri : String) (options : SarifOptions) :
    List Char :=
  "\x7b".toList ++ "\"version\":\"2.1.0\",".toList ++ "\"$schema\":".toList ++
    pushJsonString sarifSchemaUrl ++ ",".toList ++
    "\"runs\":[\x7b\"tool\":\x7b\"driver\":\x7b\"name\":".toList ++ pushJsonString options.toolName ++
    "\x7d\x7d,\"results\":[".toList ++ separated (diags.map (writeResult src uri)) ++
    "]\x7d]\x7d".toList

/-! ### The values that are written -/

/-- Four hexadecimal digits as one number. -/
def fourDigits : List Char → Option ℕ
  | [a, b, c, d] => Json.codeUnit a b c d
  | _ => none

theorem fourDigits_eq_some {digits : List Char} {n : ℕ} (h : fourDigits digits = some n) :
    ∃ a b c d, digits = [a, b, c, d] ∧ Json.codeUnit a b c d = some n := by
  unfold fourDigits at h
  split at h
  · rename_i a b c d
    exact ⟨a, b, c, d, rfl, h⟩
  · cases h

/-- The escape of a control character is the number of the character. -/
theorem fourDigits_control :
    ∀ n < 32, fourDigits (List.leftpad 4 '0' (Nat.toDigits 16 n)) = some n := by decide

/-- A string as the writer spells it is read back. -/
theorem spells_escape {text s : List Char} (h : Spells text s) (c : Char) :
    Spells (escapeJson c ++ text) (c :: s) := by
  unfold escapeJson
  split
  · exact Json.spells_escape h (by decide) rfl
  · exact Json.spells_escape h (by decide) rfl
  · exact Json.spells_escape h (by decide) rfl
  · exact Json.spells_escape h (by decide) rfl
  · exact Json.spells_escape h (by decide) rfl
  · exact Json.spells_escape h (by decide) rfl
  · exact Json.spells_escape h (by decide) rfl
  · rename_i hquote hslash _ _ _ _ _
    split
    · rename_i hle
      have hn : c.toNat < 32 := Nat.lt_succ_of_le hle
      obtain ⟨a, b, c', d, hpad, hunit⟩ := fourDigits_eq_some (fourDigits_control c.toNat hn)
      rw [hpad]
      have hread := Json.spells_unicode h hunit (by omega)
      rw [Char.ofNat_toNat] at hread
      exact hread
    · rename_i hle
      refine Json.spells_cons h hquote hslash fun hlt => hle ?_
      exact Nat.le_of_lt_succ hlt

theorem spells_flatMap (s : List Char) : Spells (s.flatMap escapeJson) s := by
  induction s with
  | nil => exact Json.spells_nil
  | cons c s ih => exact spells_escape ih c

theorem reads_pushJsonString (s : String) : Reads (pushJsonString s) (.string s.toList) :=
  Json.reads_string (spells_flatMap s.toList)

def locationJson (src uri : String) (span : Span) : Json :=
  objectOf [("physicalLocation", objectOf [
    ("artifactLocation", objectOf [("uri", .string uri.toList)]),
    ("region", objectOf [
      ("startLine", .number (lineCol src span.start).1 0),
      ("startColumn", .number (lineCol src span.start).2 0),
      ("endLine", .number (lineCol src span.stop).1 0),
      ("endColumn", .number (lineCol src span.stop).2 0)])])]

def resultJson (src uri : String) (d : Diagnostic) : Json :=
  objectOf [("ruleId", .string d.code.toList), ("level", .string (sarifLevel d.severity).toList),
    ("message", objectOf [("text", .string d.message.toList)]),
    ("locations", .array [locationJson src uri d.span])]

/-- A SARIF document with one run. -/
def sarifJson (toolName : String) (results : List Json) : Json :=
  objectOf [("version", .string "2.1.0".toList), ("$schema", .string sarifSchemaUrl.toList),
    ("runs", .array [objectOf [
      ("tool", objectOf [("driver", objectOf [("name", .string toolName.toList)])]),
      ("results", .array results)]])]

theorem reads_writeLocation (src uri : String) (span : Span) :
    Reads (writeLocation src uri span) (locationJson src uri span) := by
  have huri := reads_field "uri" (by decide) (reads_pushJsonString uri)
  have hregion := reads_objectText <|
    readsField_cons "startLine" (by decide) (Json.reads_nat (lineCol src span.start).1) <|
    readsField_cons "startColumn" (by decide) (Json.reads_nat (lineCol src span.start).2) <|
    readsField_cons "endLine" (by decide) (Json.reads_nat (lineCol src span.stop).1) <|
    readsField_cons "endColumn" (by decide) (Json.reads_nat (lineCol src span.stop).2) .nil
  have hphysical := reads_objectText <| readsField_cons "artifactLocation" (by decide) huri <|
    readsField_cons "region" (by decide) hregion .nil
  refine (reads_field "physicalLocation" (by decide) hphysical).congr ?_ rfl
  delta writeLocation
  simp [objectText, fieldText, separated]

theorem reads_writeResult (src uri : String) (d : Diagnostic) :
    Reads (writeResult src uri d) (resultJson src uri d) := by
  have hmessage := reads_field "text" (by decide) (reads_pushJsonString d.message)
  have hlocations : Reads (arrayText [writeLocation src uri d.span]) _ :=
    Json.reads_array (.cons (reads_writeLocation src uri d.span) .nil)
  have hresult := reads_objectText <|
    readsField_cons "ruleId" (by decide) (reads_pushJsonString d.code) <|
    readsField_cons "level" (by decide) (reads_pushJsonString (sarifLevel d.severity)) <|
    readsField_cons "message" (by decide) hmessage <|
    readsField_cons "locations" (by decide) hlocations .nil
  refine hresult.congr ?_ rfl
  delta writeResult
  simp [objectText, arrayText, fieldText, separated]

/-- A document around results. -/
theorem reads_sarif {toolName : String} {name : List Char}
    (hname : Reads name (.string toolName.toList)) {texts : List (List Char)} {results : List Json}
    (hall : List.Forall₂ Reads texts results) :
    Reads ("\x7b\"version\":\"2.1.0\",\"$schema\":".toList ++ pushJsonString sarifSchemaUrl ++
      ",\"runs\":[\x7b\"tool\":\x7b\"driver\":\x7b\"name\":".toList ++ name ++
      "\x7d\x7d,\"results\":[".toList ++ separated texts ++ "]\x7d]\x7d".toList)
      (sarifJson toolName results) := by
  have hdriver := reads_field "driver" (by decide) (reads_field "name" (by decide) hname)
  have hresults : Reads (arrayText texts) (.array results) := Json.reads_array hall
  have hrun := reads_objectText <| readsField_cons "tool" (by decide) hdriver <|
    readsField_cons "results" (by decide) hresults .nil
  have hruns : Reads (arrayText [_]) _ := Json.reads_array (.cons hrun .nil)
  have hversion : Reads ('"' :: "2.1.0".toList ++ ['"']) (.string "2.1.0".toList) :=
    Json.reads_string (Json.spells_plain (by decide))
  have hdocument := reads_objectText <| readsField_cons "version" (by decide) hversion <|
    readsField_cons "$schema" (by decide) (reads_pushJsonString sarifSchemaUrl) <|
    readsField_cons "runs" (by decide) hruns .nil
  refine hdocument.congr ?_ rfl
  simp [objectText, arrayText, fieldText, separated]

theorem reads_toSarif (diags : List Diagnostic) (src uri : String) (options : SarifOptions) :
    Reads (toSarifWithOptions diags src uri options)
      (sarifJson options.toolName (diags.map (resultJson src uri))) := by
  have hall : List.Forall₂ Reads (diags.map (writeResult src uri))
      (diags.map (resultJson src uri)) := by
    rw [List.forall₂_map_left_iff, List.forall₂_map_right_iff, List.forall₂_same]
    exact fun d _ => reads_writeResult src uri d
  refine (reads_sarif (reads_pushJsonString options.toolName) hall).congr ?_ rfl
  delta toSarifWithOptions
  simp

/-! ### Reading a document -/

/-- What a result says about a diagnostic. -/
structure SarifResult where
  ruleId : List Char
  level : List Char
  message : List Char
  uri : List Char
  start : ℕ × ℕ
  stop : ℕ × ℕ
deriving DecidableEq

def readResult (j : Json) : Option SarifResult := do
  let ruleId ← (← j.path? ["ruleId"]).string?
  let level ← (← j.path? ["level"]).string?
  let message ← (← j.path? ["message", "text"]).string?
  let location ← (← j.path? ["locations"]).only?
  let uri ← (← location.path? ["physicalLocation", "artifactLocation", "uri"]).string?
  let region ← location.path? ["physicalLocation", "region"]
  let startLine ← (← region.path? ["startLine"]).nat?
  let startColumn ← (← region.path? ["startColumn"]).nat?
  let endLine ← (← region.path? ["endLine"]).nat?
  let endColumn ← (← region.path? ["endColumn"]).nat?
  some ⟨ruleId, level, message, uri, (startLine, startColumn), (endLine, endColumn)⟩

/-- The name of the tool and the results of the one run of a document. -/
def readRun {α : Type} (read : Json → Option α) (j : Json) : Option (List Char × List α) := do
  let run ← (← j.path? ["runs"]).only?
  let name ← (← run.path? ["tool", "driver", "name"]).string?
  let results ← (← run.path? ["results"]).array?
  let items ← results.mapM read
  some (name, items)

theorem readRun_sarifJson {α β : Type} {read : Json → Option β} {write : α → Json} {g : α → β}
    (h : ∀ a, read (write a) = some (g a)) (toolName : String) (l : List α) :
    readRun read (sarifJson toolName (l.map write)) = some (toolName.toList, l.map g) := by
  have hitems := Json.mapM_map_eq_some (l := l) fun a _ => h a
  simp [readRun, sarifJson, hitems]

/-- The result that a diagnostic is written as. -/
def sarifResult (src uri : String) (d : Diagnostic) : SarifResult where
  ruleId := d.code.toList
  level := (sarifLevel d.severity).toList
  message := d.message.toList
  uri := uri.toList
  start := lineCol src d.span.start
  stop := lineCol src d.span.stop

theorem readResult_resultJson (src uri : String) (d : Diagnostic) :
    readResult (resultJson src uri d) = some (sarifResult src uri d) := by
  simp [readResult, resultJson, locationJson, sarifResult]

/-- The document that is written is read back: the tool and the results in their order. -/
theorem toSarif_read (diags : List Diagnostic) (src uri : String) (options : SarifOptions) :
    (Json.decode (toSarifWithOptions diags src uri options)).bind (readRun readResult) =
      some (options.toolName.toList, diags.map (sarifResult src uri)) := by
  rw [Json.decode_of_reads (reads_toSarif diags src uri options)]
  exact readRun_sarifJson (readResult_resultJson src uri) options.toolName diags

end Diag
