import NFdl.Adgl.Snapshot
import NFdl.Syntax.Diagnostics

/-!
# Problems as SARIF

The problems of a snapshot that nothing supersedes are written as the results of a
SARIF document, with the fields of their evidence. Under strict privacy the fields that
the catalog marks as personal are written as a placeholder.
-/

namespace Adgl

open Diag (pushJsonString sarifSchemaUrl sarifJson reads_pushJsonString)
open Json (Reads separated objectOf objectText arrayText fieldText reads_objectText
  readsField_cons reads_field)

/-- The options of the emission. -/
structure SarifOptions where
  strictPrivacy : Bool

def SarifOptions.default : SarifOptions := ⟨false⟩

def SarifOptions.strict : SarifOptions := ⟨true⟩

/-! ### Redaction -/

def redacted : String := "<redacted>"

/-- The names of all fields that the catalog marks as personal. -/
def Catalog.piiFieldNames (catalog : Catalog) : List String :=
  catalog.events.flatMap fun schema => (schema.fields.filter (·.pii)).map FieldSchema.name

/-- A name of a field is personal if the field of some event is that has it. -/
theorem mem_piiFieldNames {catalog : Catalog} {name : String} :
    name ∈ catalog.piiFieldNames ↔
      ∃ schema ∈ catalog.events, ∃ field ∈ schema.fields, field.pii = true ∧ field.name = name := by
  unfold Catalog.piiFieldNames
  simp only [List.mem_flatMap, List.mem_map, List.mem_filter, and_assoc]

/-- What is written for a field. -/
def redactField (catalog : Catalog) (field : String × String) : String :=
  if field.1 ∈ catalog.piiFieldNames then redacted else field.2

def redactEvidenceFieldMap (catalog : Catalog) (fields : SortedMap String String)
    (strict : Bool) : SortedMap String String :=
  if strict then
    fields.entries.foldl (fun out field => out.insert field.1 (redactField catalog field)) .empty
  else fields

/-- Redaction keeps the names of the fields and their order. -/
theorem entries_redactEvidenceFieldMap (catalog : Catalog) (fields : SortedMap String String) :
    (redactEvidenceFieldMap catalog fields true).entries =
      fields.entries.map fun field => (field.1, redactField catalog field) :=
  fields.entries_foldl_insert (redactField catalog)

/-! ### The writer -/

def sarifLevel : Severity → String
  | .critical | .high => "error"
  | .medium | .low => "warning"
  | .recommended | .optional => "note"

def scopeTypeName : ScopeType → String
  | .session => "session"
  | .port => "port"
  | .clientMac => "client_mac"
  | .vlan => "vlan"
  | .accessPoint => "access_point"
  | .global => "global"

def fingerprintTarget (scope : ScopeId) : String :=
  scopeTypeName scope.scopeType ++ ":" ++
    String.ofList (List.leftpad 16 '0' (Nat.toDigits 16 scope.hashKey.toNat))

def resultMessage (problemKind : String) (scopeType : ScopeType) : String :=
  problemKind ++ " detected in " ++ scopeTypeName scopeType ++ " scope"

/-- Severities are written at three levels, in the order from the gravest to the least: what is
recommended or optional is a note. -/
theorem sarifLevel_bands (s : Severity) :
    (sarifLevel s = "error" ↔ s.ctorIdx < 2) ∧
      (sarifLevel s = "warning" ↔ 2 ≤ s.ctorIdx ∧ s.ctorIdx < 4) ∧
      (sarifLevel s = "note" ↔ 4 ≤ s.ctorIdx) := by
  cases s <;> decide

theorem scopeTypeName_injective : ∀ s t, scopeTypeName s = scopeTypeName t → s = t := by
  intro s t
  cases s <;> cases t <;> decide

/-- The number that hexadecimal digits stand for. -/
def hexNumber (digits : List Char) : ℕ :=
  digits.foldl (fun n c => 16 * n + (Json.hexValue c).getD 0) 0

theorem hexNumber_toDigits (n : ℕ) : hexNumber (Nat.toDigits 16 n) = n := by
  have hdigit : ∀ d < 16, (Json.hexValue d.digitChar).getD 0 = d := by decide
  induction n using Nat.base_induction 16 (by decide) with
  | single m hm =>
      rw [Nat.toDigits_of_lt_base hm]
      exact (Nat.zero_add _).trans (hdigit m hm)
  | digit m k hk hm ih =>
      rw [← Nat.toDigits_append_toDigits (by decide) hm hk, Nat.toDigits_of_lt_base hk]
      unfold hexNumber at ih ⊢
      rw [List.foldl_append, ih]
      exact congrArg (16 * m + ·) (hdigit k hk)

/-- A target is written as its type and the sixteen digits of its hash. -/
theorem fingerprintTarget_eq (scope : ScopeId) :
    ∃ digits, (fingerprintTarget scope).toList =
        (scopeTypeName scope.scopeType).toList ++ ':' :: digits ∧
      digits.length = 16 ∧ hexNumber digits = scope.hashKey.toNat := by
  refine ⟨List.leftpad 16 '0' (Nat.toDigits 16 scope.hashKey.toNat), ?_, ?_, ?_⟩
  · simp [fingerprintTarget]
  · have hle : (Nat.toDigits 16 scope.hashKey.toNat).length ≤ 16 :=
      (Nat.length_toDigits_le_iff (by decide) (by decide)).mpr scope.hashKey.toNat_lt
    rw [List.length_leftpad, Nat.max_eq_left hle]
  · have hzeros : ∀ k, (List.replicate k '0').foldl
        (fun n c => 16 * n + (Json.hexValue c).getD 0) 0 = 0 := by
      intro k
      induction k with
      | zero => rfl
      | succ k ih => exact ih
    unfold hexNumber List.leftpad
    rw [List.foldl_append, hzeros]
    exact hexNumber_toDigits _

/-- A message names the kind of the problem and the type of its scope. -/
theorem resultMessage_inj {kind kind' : String} {s t : ScopeType} :
    resultMessage kind s = resultMessage kind' t ↔ kind = kind' ∧ s = t := by
  have htails : ∀ s t : ScopeType, s ≠ t →
      (resultMessage "" s).toList.reverse.take 8 ≠ (resultMessage "" t).toList.reverse.take 8 := by
    intro s t
    cases s <;> cases t <;> decide
  have hlong : ∀ s : ScopeType, 8 ≤ (resultMessage "" s).toList.reverse.length := by
    intro s
    cases s <;> decide
  have happend : ∀ kind s, (resultMessage kind s).toList =
      kind.toList ++ (resultMessage "" s).toList := by
    intro kind s
    simp [resultMessage]
  have htail : ∀ kind s, (resultMessage kind s).toList.reverse.take 8 =
      (resultMessage "" s).toList.reverse.take 8 := by
    intro kind s
    rw [happend, List.reverse_append, List.take_append_of_le_length (hlong s)]
  constructor
  · intro h
    have hst : s = t := by
      by_contra hne
      refine htails s t hne ?_
      rw [← htail kind s, ← htail kind' t, h]
    subst hst
    have hkind := congrArg String.toList h
    rw [happend kind, happend kind'] at hkind
    exact ⟨String.toList_inj.mp (List.append_cancel_right hkind), rfl⟩
  · rintro ⟨rfl, rfl⟩
    rfl

def writeEvidenceObject (catalog : Catalog) (fields : SortedMap String String)
    (options : SarifOptions) : List Char :=
  let rendered := redactEvidenceFieldMap catalog fields options.strictPrivacy
  "\x7b".toList ++ separated (rendered.entries.map fun field =>
    pushJsonString field.1 ++ ":".toList ++ pushJsonString field.2) ++ "\x7d".toList

/-- The evidence of a problem, if there is any. -/
def writeProperties (catalog : Catalog) (fields : SortedMap String String)
    (options : SarifOptions) : List Char :=
  if fields.entries = [] then []
  else ",".toList ++ "\"properties\":\x7b\"evidence\":".toList ++
    writeEvidenceObject catalog fields options ++ "\x7d".toList

def writeResult (catalog : Catalog) (options : SarifOptions) (problem : ProblemView) : List Char :=
  "\x7b".toList ++ "\"ruleId\":".toList ++ pushJsonString problem.sarifId ++ ",".toList ++
    "\"level\":".toList ++ pushJsonString (sarifLevel problem.severity) ++ ",".toList ++
    "\"message\":\x7b\"text\":".toList ++
    pushJsonString (resultMessage problem.kind problem.scope.scopeType) ++ "\x7d,".toList ++
    "\"partialFingerprints\":\x7b".toList ++
    "\"scope\":".toList ++ pushJsonString (scopeTypeName problem.scope.scopeType) ++ ",".toList ++
    "\"target\":".toList ++ pushJsonString (fingerprintTarget problem.target) ++ ",".toList ++
    "\"causes\":[".toList ++ separated (problem.causeKinds.map pushJsonString) ++ "]\x7d".toList ++
    writeProperties catalog problem.evidenceFields options ++ "\x7d".toList

/-- The problems that are written. -/
def Snapshot.standing (snapshot : Snapshot) : List ProblemView :=
  snapshot.problems.filter fun problem => !problem.superseded

def toSarifWithOptions (catalog : Catalog) (snapshot : Snapshot) (options : SarifOptions) :
    List Char :=
  "\x7b".toList ++ "\"version\":\"2.1.0\",".toList ++ "\"$schema\":".toList ++
    pushJsonString sarifSchemaUrl ++ ",".toList ++
    "\"runs\":[\x7b\"tool\":\x7b\"driver\":\x7b\"name\":\"adgl\"\x7d\x7d,\"results\":[".toList ++
    separated (snapshot.standing.map (writeResult catalog options)) ++ "]\x7d]\x7d".toList

/-! ### The values that are written -/

/-- The fields that are written of a problem. -/
def writtenEvidence (catalog : Catalog) (options : SarifOptions) (problem : ProblemView) :
    List (String × String) :=
  (redactEvidenceFieldMap catalog problem.evidenceFields options.strictPrivacy).entries

def propertiesJson (catalog : Catalog) (options : SarifOptions) (problem : ProblemView) :
    List (String × Json) :=
  if problem.evidenceFields.entries = [] then []
  else [("properties", objectOf [("evidence",
    objectOf ((writtenEvidence catalog options problem).map fun f => (f.1, .string f.2.toList)))])]

def resultJson (catalog : Catalog) (options : SarifOptions) (problem : ProblemView) : Json :=
  objectOf <| [("ruleId", .string problem.sarifId.toList),
    ("level", .string (sarifLevel problem.severity).toList),
    ("message", objectOf [("text",
      .string (resultMessage problem.kind problem.scope.scopeType).toList)]),
    ("partialFingerprints", objectOf [
      ("scope", .string (scopeTypeName problem.scope.scopeType).toList),
      ("target", .string (fingerprintTarget problem.target).toList),
      ("causes", .array (problem.causeKinds.map fun kind => .string kind.toList))])] ++
    propertiesJson catalog options problem

theorem reads_writeEvidenceObject (catalog : Catalog) (fields : SortedMap String String)
    (options : SarifOptions) :
    Reads (writeEvidenceObject catalog fields options)
      (objectOf ((redactEvidenceFieldMap catalog fields options.strictPrivacy).entries.map
        fun f => (f.1, .string f.2.toList))) := by
  have hmember : ∀ f : String × String,
      Json.ReadsMember (pushJsonString f.1 ++ ":".toList ++ pushJsonString f.2)
        (f.1.toList, .string f.2.toList) := by
    intro f
    refine (Json.reads_member (Diag.spells_flatMap f.1.toList)
      (reads_pushJsonString f.2)).congr ?_ rfl
    simp [pushJsonString]
  unfold objectOf
  rw [List.map_map]
  refine Json.reads_object ?_
  rw [List.forall₂_map_left_iff, List.forall₂_map_right_iff, List.forall₂_same]
  exact fun f _ => hmember f

theorem reads_writeResult (catalog : Catalog) (options : SarifOptions) (problem : ProblemView) :
    Reads (writeResult catalog options problem) (resultJson catalog options problem) := by
  have hmessage := reads_field "text" (by decide)
    (reads_pushJsonString (resultMessage problem.kind problem.scope.scopeType))
  have hkinds : List.Forall₂ Reads (problem.causeKinds.map pushJsonString)
      (problem.causeKinds.map fun kind => .string kind.toList) := by
    rw [List.forall₂_map_left_iff, List.forall₂_map_right_iff, List.forall₂_same]
    exact fun kind _ => reads_pushJsonString kind
  have hcauses : Reads (arrayText (problem.causeKinds.map pushJsonString)) _ :=
    Json.reads_array hkinds
  have hprints := reads_objectText <|
    readsField_cons "scope" (by decide)
      (reads_pushJsonString (scopeTypeName problem.scope.scopeType)) <|
    readsField_cons "target" (by decide) (reads_pushJsonString (fingerprintTarget problem.target)) <|
    readsField_cons "causes" (by decide) hcauses .nil
  have hfields := fun texts values (hall : List.Forall₂ Json.ReadsField texts values) =>
    reads_objectText <|
    readsField_cons "ruleId" (by decide) (reads_pushJsonString problem.sarifId) <|
    readsField_cons "level" (by decide) (reads_pushJsonString (sarifLevel problem.severity)) <|
    readsField_cons "message" (by decide) hmessage <|
    readsField_cons "partialFingerprints" (by decide) hprints hall
  unfold resultJson propertiesJson
  by_cases hempty : problem.evidenceFields.entries = []
  · rw [if_pos hempty]
    refine (hfields [] [] .nil).congr ?_ rfl
    delta writeResult writeProperties
    rw [if_pos hempty]
    simp [objectText, arrayText, fieldText, separated]
  · rw [if_neg hempty]
    have hevidence := reads_field "evidence" (by decide)
      (reads_writeEvidenceObject catalog problem.evidenceFields options)
    refine (hfields _ _ (readsField_cons "properties" (by decide) hevidence .nil)).congr ?_ rfl
    delta writeResult writeProperties
    rw [if_neg hempty]
    simp [objectText, arrayText, fieldText, separated]

theorem reads_toSarif (catalog : Catalog) (snapshot : Snapshot) (options : SarifOptions) :
    Reads (toSarifWithOptions catalog snapshot options)
      (sarifJson "adgl" (snapshot.standing.map (resultJson catalog options))) := by
  have hall : List.Forall₂ Reads (snapshot.standing.map (writeResult catalog options))
      (snapshot.standing.map (resultJson catalog options)) := by
    rw [List.forall₂_map_left_iff, List.forall₂_map_right_iff, List.forall₂_same]
    exact fun problem _ => reads_writeResult catalog options problem
  have hname : Reads ('"' :: "adgl".toList ++ ['"']) (.string "adgl".toList) :=
    Json.reads_string (Json.spells_plain (by decide))
  refine (Diag.reads_sarif hname hall).congr ?_ rfl
  delta toSarifWithOptions
  simp

/-! ### Reading a document -/

/-- What a result says about a problem. -/
structure SarifProblem where
  ruleId : List Char
  level : List Char
  message : List Char
  scope : List Char
  target : List Char
  causes : List (List Char)
  evidence : List (List Char × List Char)
deriving DecidableEq

def readProblem (j : Json) : Option SarifProblem := do
  let ruleId ← (← j.path? ["ruleId"]).string?
  let level ← (← j.path? ["level"]).string?
  let message ← (← j.path? ["message", "text"]).string?
  let scope ← (← j.path? ["partialFingerprints", "scope"]).string?
  let target ← (← j.path? ["partialFingerprints", "target"]).string?
  let causes ← (← (← j.path? ["partialFingerprints", "causes"]).array?).mapM Json.string?
  let evidence ← match j.path? ["properties"] with
    | none => some []
    | some properties => (properties.path? ["evidence"]).bind Json.strings?
  some ⟨ruleId, level, message, scope, target, causes, evidence⟩

/-- The result that a problem is written as. -/
def sarifProblem (catalog : Catalog) (options : SarifOptions) (problem : ProblemView) :
    SarifProblem where
  ruleId := problem.sarifId.toList
  level := (sarifLevel problem.severity).toList
  message := (resultMessage problem.kind problem.scope.scopeType).toList
  scope := (scopeTypeName problem.scope.scopeType).toList
  target := (fingerprintTarget problem.target).toList
  causes := problem.causeKinds.map String.toList
  evidence := problem.evidenceFields.entries.map fun field => (field.1.toList,
    if options.strictPrivacy then (redactField catalog field).toList else field.2.toList)

/-- The evidence is that of the problem, field by field, except that strict privacy replaces the
values of personal fields. -/
theorem sarifProblem_evidence (catalog : Catalog) (options : SarifOptions) (problem : ProblemView) :
    List.Forall₂ (fun field written => written.1 = field.1.toList ∧
        written.2 = if options.strictPrivacy = true ∧ field.1 ∈ catalog.piiFieldNames
          then redacted.toList else field.2.toList)
      problem.evidenceFields.entries (sarifProblem catalog options problem).evidence := by
  unfold sarifProblem
  rw [List.forall₂_map_right_iff, List.forall₂_same]
  intro field _
  refine ⟨rfl, ?_⟩
  cases options.strictPrivacy with
  | false => simp
  | true =>
      unfold redactField
      simp only [if_true, true_and]
      split <;> rfl

theorem writtenEvidence_eq (catalog : Catalog) (options : SarifOptions) (problem : ProblemView) :
    (writtenEvidence catalog options problem).map (fun f => (f.1.toList, f.2.toList)) =
      (sarifProblem catalog options problem).evidence := by
  unfold writtenEvidence sarifProblem
  cases options.strictPrivacy with
  | false => rfl
  | true =>
      rw [entries_redactEvidenceFieldMap, List.map_map]
      rfl

theorem readProblem_resultJson (catalog : Catalog) (options : SarifOptions)
    (problem : ProblemView) :
    readProblem (resultJson catalog options problem) =
      some (sarifProblem catalog options problem) := by
  have hcauses : (problem.causeKinds.map fun kind => Json.string kind.toList).mapM Json.string? =
      some (problem.causeKinds.map String.toList) := Json.mapM_map_eq_some fun _ _ => rfl
  have hevidence : (objectOf ((writtenEvidence catalog options problem).map fun f =>
      (f.1, .string f.2.toList))).strings? = some (sarifProblem catalog options problem).evidence := by
    rw [← writtenEvidence_eq]
    change ((_ : List (String × Json)).map _).mapM _ = _
    rw [List.map_map]
    exact Json.mapM_map_eq_some fun _ _ => rfl
  unfold resultJson propertiesJson
  by_cases hempty : problem.evidenceFields.entries = []
  · rw [if_pos hempty]
    simp [readProblem, sarifProblem, hcauses, hempty]
  · rw [if_neg hempty]
    simp [readProblem, hcauses, hevidence]
    rfl

theorem toSarif_read (catalog : Catalog) (snapshot : Snapshot) (options : SarifOptions) :
    (Json.decode (toSarifWithOptions catalog snapshot options)).bind (Diag.readRun readProblem) =
      some ("adgl".toList, snapshot.standing.map (sarifProblem catalog options)) := by
  rw [Json.decode_of_reads (reads_toSarif catalog snapshot options)]
  exact Diag.readRun_sarifJson (readProblem_resultJson catalog options) "adgl" snapshot.standing

/-- Both writers write one JSON document, from which their input is read back in its order:
of a list of diagnostics the name of the tool and every diagnostic with its location, of a
snapshot every problem that nothing supersedes with its evidence, in which strict privacy
has replaced the values of personal fields. -/
theorem sarif_decodes_exactly :
    (∀ (diags : List Diag.Diagnostic) (src uri : String) (options : Diag.SarifOptions),
      (Json.decode (Diag.toSarifWithOptions diags src uri options)).bind
          (Diag.readRun Diag.readResult) =
        some (options.toolName.toList, diags.map (Diag.sarifResult src uri))) ∧
    ∀ (catalog : Catalog) (snapshot : Snapshot) (options : SarifOptions),
      (Json.decode (toSarifWithOptions catalog snapshot options)).bind (Diag.readRun readProblem) =
        some ("adgl".toList, snapshot.standing.map (sarifProblem catalog options)) :=
  ⟨Diag.toSarif_read, toSarif_read⟩

/-- A problem with an address in its evidence. -/
def addressProblem (superseded : Bool) : ProblemView where
  scope := ⟨.session, 7⟩
  kind := "XlIcmpTcpMss"
  target := ⟨.session, 7⟩
  time := ⟨900⟩
  severity := .high
  sarifId := "l3_pmtud_blackhole"
  causeKinds := ["PmtudBlackhole"]
  evidenceFields := SortedMap.empty.insert "dst_ip" "167772161"
  superseded := superseded

/-- The address is not read back under strict privacy, and a superseded problem is not read
back at all. -/
theorem addressProblem_not_read_back :
    (Json.decode (toSarifWithOptions Catalog.seed ⟨[], [addressProblem false], []⟩ .strict)).bind
        (Diag.readRun readProblem) ≠
      some ("adgl".toList, [sarifProblem Catalog.seed .default (addressProblem false)]) ∧
    (Json.decode (toSarifWithOptions Catalog.seed ⟨[], [addressProblem true], []⟩ .default)).bind
        (Diag.readRun readProblem) ≠
      some ("adgl".toList, [sarifProblem Catalog.seed .default (addressProblem true)]) := by
  rw [toSarif_read, toSarif_read]
  exact ⟨by decide +kernel, by decide +kernel⟩

end Adgl
