import NFdl.Syntax.Parser

/-!
# The two modes of the N-FDL parser

With and without recovery the parser does the same up to the first error, and with recovery
every error that stops the other mode is recorded.
-/

namespace NFdl

open Recovery (Agrees)

namespace StmtParser

variable {α : Type} {p : StmtM α} {inner : StmtM Body}

theorem stmtsUntil_agrees {stop : List Token → Bool} {step : α → StmtM α}
    (hstep : ∀ a, Agrees (step a)) (a : α) : Agrees (stmtsUntil stop step a) :=
  .untilStop hstep a

theorem recoverStmt_agrees (hp : Agrees p) : Agrees (recoverStmt p) := hp.recoverItem _

theorem parseType_agrees : Agrees (recoverStmt (liftM parseType)) :=
  recoverStmt_agrees (.lift _)

/-! ### Fields -/

theorem remRejected_agrees (e : Expr) (msg : String) : Agrees (remRejected e msg) := by
  unfold remRejected
  split
  · exact (Agrees.reject _).bind fun _ => .pure
  · exact .pure

theorem conditionalClause_agrees (skipRest : TokenM Unit) :
    Agrees (conditionalClause skipRest) := by
  refine (recoverStmt_agrees (.lift _)).bind fun e => ?_
  cases e with
  | none => exact .pure
  | some e =>
      refine (remRejected_agrees e _).bind fun rejected => ?_
      cases rejected with
      | true => exact .pure
      | false => exact (Agrees.lift _).bind fun _ => .pure

theorem conditional_agrees (skipRest : TokenM Unit) : Agrees (conditional skipRest) := by
  refine (Agrees.lift _).bind fun t => Agrees.ite ?_ .pure
  exact (Agrees.lift _).bind fun _ => conditionalClause_agrees skipRest

theorem fieldEnd_agrees : Agrees fieldEnd := by
  refine (Agrees.lift _).bind fun t => ?_
  split
  · exact .lift _
  all_goals first | exact .pure | exact .reject _

theorem fieldStmt_agrees (b : Body) (name : String) : Agrees (fieldStmt b name) := by
  refine (Agrees.lift _).bind fun _ => parseType_agrees.bind fun ty => ?_
  cases ty with
  | none => exact .pure
  | some ty =>
      refine (Agrees.lift _).bind fun v => (conditional_agrees _).bind fun cond => ?_
      cases cond with
      | none => exact .pure
      | some cond => exact fieldEnd_agrees.bind fun _ => .pure

theorem letOrField_agrees (b : Body) : Agrees (letOrField b) := by
  refine (Agrees.lift _).bind fun t => ?_
  split
  · exact (Agrees.lift _).bind fun _ => .lift _
  · exact fieldStmt_agrees b _

/-! ### Loops -/

theorem carryStep_agrees (carries : List Carry) : Agrees (carryStep carries) := by
  refine (Agrees.lift _).bind fun _ => (Agrees.lift _).bind fun name => ?_
  refine (Agrees.lift _).bind fun _ => parseType_agrees.bind fun ty => ?_
  cases ty with
  | none => exact .pure
  | some ty =>
      refine (Agrees.lift _).bind fun _ => (Agrees.lift _).bind fun init => ?_
      exact (Agrees.lift _).bind fun _ => .pure

theorem loopField_agrees (body : List Field) (name : String) : Agrees (loopField body name) := by
  refine (Agrees.lift _).bind fun _ => parseType_agrees.bind fun ty => ?_
  cases ty with
  | none => exact .pure
  | some ty =>
      refine (conditional_agrees _).bind fun cond => ?_
      cases cond with
      | none => exact .pure
      | some cond => exact (Agrees.lift _).bind fun _ => .pure

theorem loopItem_agrees (acc : List Field × List NextStmt) : Agrees (loopItem acc) := by
  refine (Agrees.lift _).bind fun t => (Agrees.lift _).bind fun _ => ?_
  split
  · exact (Agrees.lift _).bind fun _ => .pure
  · exact (loopField_agrees acc.1 _).bind fun _ => .pure
  · exact (Agrees.lift _).bind fun _ => .pure

theorem loopStmt_agrees (b : Body) : Agrees (loopStmt b) := by
  refine (Agrees.lift _).bind fun name => ?_
  refine (stmtsUntil_agrees carryStep_agrees []).bind fun carries => ?_
  refine (Agrees.lift _).bind fun _ => (Agrees.lift _).bind fun condition => ?_
  refine (Agrees.lift _).bind fun _ => ?_
  refine (stmtsUntil_agrees loopItem_agrees ([], [])).bind fun items => ?_
  exact (Agrees.lift _).bind fun _ => (remRejected_agrees condition _).bind fun _ => .pure

/-! ### Bodies -/

theorem matchArm_agrees (hinner : Agrees inner) (arms : List MatchArm) :
    Agrees (matchArm inner arms) := by
  refine (Agrees.lift _).bind fun label => (Agrees.lift _).bind fun _ => ?_
  refine (Agrees.lift _).bind fun _ => (recoverStmt_agrees hinner).bind fun arm => ?_
  cases arm with
  | none => exact .pure
  | some b => exact (Agrees.lift _).bind fun _ => .pure

theorem matchStmt_agrees (hinner : Agrees inner) (b : Body) : Agrees (matchStmt inner b) := by
  refine (Agrees.lift _).bind fun tag => (Agrees.lift _).bind fun _ => ?_
  refine (stmtsUntil_agrees (matchArm_agrees hinner) []).bind fun arms => ?_
  exact (Agrees.lift _).bind fun _ => .pure

theorem bodyItem_agrees (hinner : Agrees inner) (b : Body) : Agrees (bodyItem inner b) := by
  refine (Agrees.lift _).bind fun t => (Agrees.lift _).bind fun _ => ?_
  split
  · exact .lift _
  · exact matchStmt_agrees hinner b
  · exact letOrField_agrees b
  · exact loopStmt_agrees b
  · exact fieldStmt_agrees b _
  · exact (Agrees.lift _).bind fun _ => .pure

theorem parseBlock_agrees (hinner : Agrees inner) : Agrees (parseBlock inner) :=
  (stmtsUntil_agrees (bodyItem_agrees hinner) .empty).bind fun _ =>
    (Agrees.lift _).bind fun _ => .pure

theorem parseBodyWithin_agrees (n : ℕ) : Agrees (parseBodyWithin n) := by
  induction n with
  | zero => exact .throw
  | succ n ih => exact parseBlock_agrees ih

theorem parseBody_agrees : Agrees parseBody :=
  Agrees.ofInput (q := fun ts => parseBodyWithin (ts.length + 1)) fun _ => parseBodyWithin_agrees _

/-! ### Protocols -/

theorem messageDecl_agrees (p : SourceProtocol) : Agrees (messageDecl p) := by
  refine (Agrees.lift _).bind fun name => (Agrees.lift _).bind fun _ => ?_
  exact (recoverStmt_agrees parseBody_agrees).bind fun _ => .pure

theorem protocolItem_agrees (p : SourceProtocol) : Agrees (protocolItem p) := by
  refine (Agrees.lift _).bind fun t => ?_
  split
  · exact .lift _
  · refine (Agrees.lift _).bind fun _ => ?_
    split
    · exact .lift _
    · exact .lift _
    · exact .lift _
    · exact .lift _
    · exact messageDecl_agrees p
    · exact .lift _
    · exact .pure

end StmtParser

theorem protocolParser_agrees : Agrees protocolParser :=
  StmtParser.stmtsUntil_agrees StmtParser.protocolItem_agrees _

/-- The parser with recovery reads the protocol that the other one reads, without an error.
Where the other one fails, its error is the first that is recorded. -/
theorem parseProtocol_modes (ts : List Token) :
    (∃ p, parseProtocol ts = .ok p ∧ parseProtocolWithDiagnostics ts = (p, [])) ∨
      ∃ e more, parseProtocol ts = .error e ∧
        (parseProtocolWithDiagnostics ts).2 = e :: more :=
  protocolParser_agrees.accepted _ _

end NFdl
