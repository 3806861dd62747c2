import NFdl.Adgl.ReadBack

/-!
# Printed ADGL rules read back

A rule is printed so that its parser makes it again, except for a correlate whose time window
is about an expression with a loose operator: the parser takes that operator, or the `in` of
the window, in another way, and refuses the text.
-/

namespace Adgl

open Ast Lexer Fmt RulesetParser
open ExprParser (endsExpr)
open Scanner (bind_ok map_ok)

variable {α β : Type} {F : Token → Bool} {o : Bool} {p : TokenM α} {a : α} {as : List α}
variable {cs cs' : List Char} {ts rest : List Token} {t : Token} {s : String}
variable (opts : FormatOptions) (level : ℕ)

/-! ### Predicates -/

theorem expr_open {e : Expr} (h : expr ts = .ok e rest) : current ts ≠ .rBrace := by
  intro hclose
  unfold expr run at h
  split at h
  · rename_i hread
    exact ExprParser.parseExpr_starts hread rfl rfl hclose
  · cases h

theorem emitPredicate_eq (pred : Expr) : emitPredicate opts level pred = " \x7b\n".toList ++
    (indentStr opts (level + 1) ++ (emitExpr pred 0 ++ ("\n".toList ++
      (indentStr opts level ++ "\x7d".toList)))) := by
  delta emitPredicate
  simp only [List.append_assoc]

/-- The tokens of a predicate in braces. -/
theorem predicate_prints {pred : Expr} (h : pred.Written) : ∃ ts,
    Spells false (emitPredicate opts level pred) (.lBrace :: (ts ++ [.rBrace])) ∧
      ∀ rest, expr (ts ++ .rBrace :: rest) = .ok pred (.rBrace :: rest) := by
  obtain ⟨ts, hspells, hread⟩ := expr_prints h
  have hopen : Spells false " \x7b\n".toList [.lBrace] :=
    (Spells.blanks 1).append (.piece rfl rfl rfl)
  have hline : Spells false "\n".toList [] := .piece rfl rfl rfl
  have hclose : Spells false "\x7d".toList [.rBrace] := .piece rfl rfl rfl
  refine ⟨ts, ?_, fun rest => hread (.rBrace :: rest) rfl⟩
  rw [emitPredicate_eq _ _]
  exact hopen.append ((spells_indent opts _).append
    (hspells.before (hline.append ((spells_indent opts _).append hclose)) rfl))

theorem optionalPredicate_prints {pred : Option Expr} (h : ∀ e ∈ pred, e.Written) :
    Prints false (fun t => decide (t ≠ .lBrace)) optionalPredicate
      (emitOptionalPredicate opts level pred ++ "\n".toList) pred := by
  have hline : Spells false "\n".toList [] := .piece rfl rfl rfl
  cases pred with
  | none =>
      refine ⟨[], hline, fun rest hrest => ?_⟩
      unfold optionalPredicate
      exact bind_ok (optional_none (of_decide_eq_true hrest))
  | some e =>
      obtain ⟨ts, hspells, hread⟩ := predicate_prints opts level (h e rfl)
      refine ⟨_, hspells.append hline, fun rest _ => ?_⟩
      simp only [List.append_nil, List.cons_append, List.append_assoc, List.nil_append]
      have hvalue := hread rest
      have hinner : exprOrClose (ts ++ .rBrace :: rest) = .ok (some e) (.rBrace :: rest) := by
        unfold exprOrClose
        refine (bind_ok (p := peek) rfl).trans ?_
        rw [if_neg (expr_open hvalue)]
        exact map_ok hvalue
      have hpred : parsePredicate (.lBrace :: (ts ++ .rBrace :: rest)) = .ok (some e) rest := by
        unfold parsePredicate
        refine (bind_ok (p := advance) rfl).trans ?_
        rw [show List.tail (.lBrace :: _) = ts ++ .rBrace :: rest from rfl, bind_ok hinner,
          bind_ok (punct_ok _ _)]
        rfl
      unfold optionalPredicate
      exact bind_ok (optional_some hpred rfl)

/-! ### Anchors -/

theorem parseBinding_ok (h : IsPlainWord s) (rest : List Token) :
    parseBinding (word s :: .colon :: rest) = .ok s rest := by
  unfold parseBinding
  rw [bind_ok (identNonKw_ok h _), bind_ok (punct_ok _ _)]
  rfl

structure Ast.AnchorBlock.Written (anchor : AnchorBlock) : Prop where
  binding : IsPlainWord anchor.binding
  eventType : KindIdentWritten anchor.eventType
  predicate : ∀ e ∈ anchor.predicate, Expr.Written e

theorem parseAnchorBlock_prints {anchor : AnchorBlock} (h : anchor.Written) :
    Prints false (fun t => decide (t ≠ .lBrace)) parseAnchorBlock
      (emitAnchorBlock opts level anchor) anchor := by
  obtain ⟨kts, hkspells, hkread⟩ := parseKindIdent_prints h.eventType
  obtain ⟨pts, hpspells, hpread⟩ :=
    optionalPredicate_prints opts level h.predicate
  have hkw : Spells false "anchor ".toList [.kw .anchor] := .piece rfl rfl rfl
  have hevent : Spells false ": event(".toList [.colon, .kw .event, .lParen] := .piece rfl rfl rfl
  have hclose : Spells false ")".toList [.rParen] := .piece rfl rfl rfl
  have htext : emitAnchorBlock opts level anchor = indentStr opts level ++ ("anchor ".toList ++
      (anchor.binding.toList ++ (": event(".toList ++ (emitKindIdent anchor.eventType ++
        (")".toList ++ (emitOptionalPredicate opts level anchor.predicate ++ "\n".toList)))))) := by
    delta emitAnchorBlock
    simp only [List.append_assoc]
  rw [htext]
  refine ⟨_, (spells_indent opts level).append (hkw.append ((Spells.word h.binding.1).before
    (hevent.append (hkspells.before (hclose.append hpspells) rfl)) rfl)), fun rest hrest => ?_⟩
  simp only [List.append_assoc, List.cons_append, List.nil_append]
  have hparen : parenthesized parseKindIdent (.lParen :: (kts ++ .rParen :: (pts ++ rest))) =
      .ok anchor.eventType (pts ++ rest) :=
    parenthesized_ok (F := fun t => decide (t ≠ .dot)) hkread rfl _
  unfold parseAnchorBlock
  rw [bind_ok (consumeKw_ok _ _), bind_ok (parseBinding_ok h.binding _),
    bind_ok (consumeKw_ok _ _), bind_ok hparen, bind_ok (hpread rest hrest)]
  rfl

def Ast.DecisionAnchor.Written : DecisionAnchor → Prop
  | .cause c => IsPlainWord c.binding ∧ IsPlainWord c.cause ∧ c.predicate.Written
  | .problem p => IsPlainWord p.binding ∧ IsPlainWord p.problem ∧
      ∀ e ∈ p.predicate, Expr.Written e

theorem parseDecisionAnchor_prints {anchor : DecisionAnchor} (h : anchor.Written) :
    Prints false (fun t => decide (t ≠ .lBrace)) parseDecisionAnchor
      (emitDecisionAnchor opts level anchor) anchor := by
  have hkw : Spells false "anchor ".toList [.kw .anchor] := .piece rfl rfl rfl
  have hclose : Spells false ")".toList [.rParen] := .piece rfl rfl rfl
  have hline : Spells false "\n".toList [] := .piece rfl rfl rfl
  cases anchor with
  | cause c =>
      obtain ⟨hbinding, hcause, hpredicate⟩ := h
      obtain ⟨pts, hpspells, hpread⟩ :=
        predicate_prints opts level hpredicate
      have hsource : Spells false ": Cause(".toList [.colon, .kw .cause, .lParen] :=
        .piece rfl rfl rfl
      have htext : emitDecisionAnchor opts level (.cause c) = indentStr opts level ++
          ("anchor ".toList ++ (c.binding.toList ++ (": Cause(".toList ++ (c.cause.toList ++
            (")".toList ++ (emitPredicate opts level c.predicate ++ "\n".toList)))))) := by
        simp only [emitDecisionAnchor, emitCauseAnchor, List.append_assoc]
      rw [htext]
      refine ⟨_, (spells_indent opts level).append (hkw.append ((Spells.word hbinding.1).before
        (hsource.append ((Spells.word hcause.1).before (hclose.append
          (hpspells.append hline)) rfl)) rfl)), fun rest _ => ?_⟩
      simp only [List.append_assoc, List.append_nil, List.cons_append, List.nil_append]
      unfold parseDecisionAnchor
      rw [bind_ok (consumeKw_ok _ _), bind_ok (parseBinding_ok hbinding _)]
      refine (bind_ok (p := peek) rfl).trans ?_
      dsimp only [current, List.headD_cons]
      rw [bind_ok (consumeKw_ok _ _), bind_ok (identParens_ok hcause _), bind_ok (punct_ok _ _),
        bind_ok (hpread rest), bind_ok (punct_ok _ _)]
      rfl
  | problem p =>
      obtain ⟨hbinding, hproblem, hpredicate⟩ := h
      obtain ⟨pts, hpspells, hpread⟩ :=
        optionalPredicate_prints opts level hpredicate
      have hsource : Spells false ": Problem(".toList [.colon, .kw .problem, .lParen] :=
        .piece rfl rfl rfl
      have htext : emitDecisionAnchor opts level (.problem p) = indentStr opts level ++
          ("anchor ".toList ++ (p.binding.toList ++ (": Problem(".toList ++ (p.problem.toList ++
            (")".toList ++ (emitOptionalPredicate opts level p.predicate ++ "\n".toList)))))) := by
        simp only [emitDecisionAnchor, emitProblemAnchor, List.append_assoc]
      rw [htext]
      refine ⟨_, (spells_indent opts level).append (hkw.append ((Spells.word hbinding.1).before
        (hsource.append ((Spells.word hproblem.1).before (hclose.append hpspells) rfl)) rfl)),
        fun rest hrest => ?_⟩
      simp only [List.cons_append, List.nil_append]
      unfold parseDecisionAnchor
      rw [bind_ok (consumeKw_ok _ _), bind_ok (parseBinding_ok hbinding _)]
      refine (bind_ok (p := peek) rfl).trans ?_
      dsimp only [current, List.headD_cons]
      rw [bind_ok (consumeKw_ok _ _), bind_ok (identParens_ok hproblem _),
        bind_ok (hpread rest hrest)]
      rfl

/-! ### Correlates -/

def Ast.CorrelateSource.Written : Ast.CorrelateSource → Prop
  | .event kind => KindIdentWritten kind
  | .problem name | .cause name => IsPlainWord name

theorem parseCorrelateSource_prints {source : Ast.CorrelateSource} (h : source.Written) :
    PrintsAll false parseCorrelateSource (emitCorrelateSource source) source := by
  have hclose : Spells false ")".toList [.rParen] := .piece rfl rfl rfl
  cases source with
  | event kind =>
      obtain ⟨ts, hspells, hread⟩ := parseKindIdent_prints h
      have hopen : Spells false "event(".toList [.kw .event, .lParen] := .piece rfl rfl rfl
      refine ⟨_, (hopen.append hspells).before hclose rfl, fun rest _ => ?_⟩
      simp only [List.append_assoc, List.cons_append, List.nil_append]
      have hparen : parenthesized parseKindIdent (.lParen :: (ts ++ .rParen :: rest)) =
          .ok kind rest := parenthesized_ok (F := fun t => decide (t ≠ .dot)) hread rfl rest
      unfold parseCorrelateSource
      refine (bind_ok (p := peek) rfl).trans ?_
      dsimp only [current, List.headD_cons]
      rw [bind_ok (consumeKw_ok _ _)]
      exact map_ok hparen
  | problem name =>
      have hopen : Spells false "Problem(".toList [.kw .problem, .lParen] := .piece rfl rfl rfl
      refine ⟨_, (hopen.append (.word h.1)).before hclose rfl, fun rest _ => ?_⟩
      unfold parseCorrelateSource
      refine (bind_ok (p := peek) rfl).trans ?_
      exact (bind_ok (consumeKw_ok _ _)).trans (map_ok (identParens_ok h rest))
  | cause name =>
      have hopen : Spells false "Cause(".toList [.kw .cause, .lParen] := .piece rfl rfl rfl
      refine ⟨_, (hopen.append (.word h.1)).before hclose rfl, fun rest _ => ?_⟩
      unfold parseCorrelateSource
      refine (bind_ok (p := peek) rfl).trans ?_
      exact (bind_ok (consumeKw_ok _ _)).trans (map_ok (identParens_ok h rest))

structure Ast.TopoPredicate.Written (topo : TopoPredicate) : Prop where
  name : IsPlainWord topo.name
  args : ∀ e ∈ topo.args, Expr.Written e

theorem parseTopoPredicate_prints {topo : TopoPredicate} (h : topo.Written) :
    PrintsAll false parseTopoPredicate (emitTopo topo) topo := by
  have hopen : Spells false "(".toList [.lParen] := .piece rfl rfl rfl
  have hclose : Spells false ")".toList [.rParen] := .piece rfl rfl rfl
  have hargs := spells_items fun e he => spells_bare (h.args e he)
  refine ⟨_, (((Spells.word h.name.1).before hopen rfl).append hargs).before hclose rfl,
    fun rest _ => ?_⟩
  have hread := run_ok
    (ExprParser.ReadsChain.parseArgs (fun e he => (ExprParser.readsBack (h.args e he)).1) rest)
  simp only [List.append_assoc, List.cons_append, List.nil_append]
  unfold parseTopoPredicate
  rw [bind_ok (identNonKw_ok h.name _), bind_ok (punct_ok _ _), bind_ok hread]
  rfl

structure Ast.TimeWindow.Written (tw : TimeWindow) : Prop where
  probe : tw.probe.Written
  start : tw.start.Written
  end_ : tw.end_.Written

/-- The operators of a probe bind tightly enough to stand in front of the `in` of the window. -/
def Ast.TimeWindow.Kept (tw : TimeWindow) : Prop := 11 ≤ exprPrec tw.probe

instance (tw : TimeWindow) : Decidable tw.Kept := inferInstanceAs (Decidable (_ ≤ _))

/-- Tokens from which a parser makes a value, or which it refuses. -/
structure Reprints (kept : Prop) (p : TokenM α) (ts : List Token) (a : α) : Prop where
  reads : kept → ∀ rest, p (ts ++ rest) = .ok a rest
  refuses : ¬ kept → ∀ rest, ∃ e s, p (ts ++ rest) = .error e s

theorem one_error {pick : Token → Option α} {e : List Token → ParseError}
    (h : pick (current ts) = none) : run (Parser.one pick e) ts = .error (e ts) ts := by
  cases ts with
  | nil => rfl
  | cons t ts =>
      unfold run
      rw [Parser.one_none (show pick t = none from h)]

theorem parseTimeWindow_reprints {tw : TimeWindow} (h : tw.Written) :
    ∃ ts, Spells false (emitTimeWindow tw) ts ∧ Reprints tw.Kept parseTimeWindow ts tw := by
  have hin : Spells false " in [".toList [.kw .in_, .lBracket] :=
    (Spells.blanks 1).append (.piece rfl rfl rfl)
  have hcomma : Spells false ", ".toList [.comma] := .piece rfl rfl rfl
  have hclose : Spells false "]".toList [.rBracket] := .piece rfl rfl rfl
  obtain ⟨sts, hsspells, hsread⟩ := expr_prints h.start
  obtain ⟨ets, hespells, heread⟩ := expr_prints h.end_
  have hprobe := spells_expr 0 h.probe
  refine ⟨_, ((((hprobe.before hin rfl).append hsspells).before hcomma rfl).append hespells).before
    hclose rfl,
    fun hkept rest => ?_, fun hloose rest => ?_⟩
  · simp only [List.append_assoc, List.cons_append, List.nil_append]
    unfold parseTimeWindow
    rw [bind_ok (run_ok (ExprParser.parseAdditive_exprTokens h.probe hkept _)),
      bind_ok (consumeKw_ok _ _), bind_ok (punct_ok _ _),
      bind_ok (hsread (.comma :: (ets ++ .rBracket :: rest)) rfl), bind_ok (punct_ok _ _),
      bind_ok (heread (.rBracket :: rest) rfl), bind_ok (punct_ok _ _)]
    rfl
  · simp only [List.append_assoc, List.cons_append, List.nil_append]
    obtain ⟨e, t, us, hread, hbracket⟩ := ExprParser.parseAdditive_stops h.probe
      (Nat.lt_of_not_le hloose) (.lBracket :: (sts ++ .comma :: (ets ++ .rBracket :: rest)))
    unfold parseTimeWindow
    rw [bind_ok (run_ok hread)]
    by_cases ht : t = .kw .in_
    · rw [ht, bind_ok (consumeKw_ok _ _)]
      exact ⟨_, _, Scanner.bind_error (one_error (if_neg hbracket))⟩
    · exact ⟨_, _, Scanner.bind_error (one_error (if_neg ht))⟩

theorem minMatch_prints {minMatch : Option ℕ} (h : ∀ n ∈ minMatch, n < 2 ^ 63) :
    Prints false (fun t => decide (t ≠ .kw .having)) (optional_ (.kw .having) parseMinMatch)
      (emitMinMatch opts level minMatch) minMatch := by
  cases minMatch with
  | none => exact ⟨[], .nil, fun rest hrest => optional_none (of_decide_eq_true hrest)⟩
  | some n =>
      have hlt := h n rfl
      have hhead : Spells false "having: count >= ".toList
          [.kw .having, .colon, .ident "count", .ge] := .piece rfl rfl rfl
      have hline : Spells false "\n".toList [] := .piece rfl rfl rfl
      have hnonneg : (Int64.ofNat n).toInt = n := Int64.toInt_ofNat_of_lt hlt
      have hcount : Spells true (Nat.toDigits 10 n) [.int (.ofNat n)] := by
        have hint := spells_int (v := .ofNat n) (by omega)
        unfold emitInt at hint
        rwa [hnonneg] at hint
      have htext : emitMinMatch opts level (some n) = indentStr opts (level + 1) ++
          ("having: count >= ".toList ++ (Nat.toDigits 10 n ++ "\n".toList)) := by
        delta emitMinMatch
        simp only [List.append_assoc]
      rw [htext]
      refine ⟨_, (spells_indent opts (level + 1)).append (hhead.append (hcount.before hline rfl)),
        fun rest _ => ?_⟩
      simp only [List.append_nil, List.cons_append, List.nil_append]
      refine optional_some ?_ rfl
      have hpos : ¬ Int64.ofNat n < 0 := by
        rw [Int64.lt_iff_toInt_lt, hnonneg]
        exact Int.not_lt.mpr (Int.natCast_nonneg n)
      unfold parseMinMatch
      rw [bind_ok (consumeKw_ok _ _), bind_ok (punct_ok _ _), bind_ok (consumeWordExact_ok _ _),
        bind_ok (punct_ok _ _), bind_ok (integer_ok _ _)]
      unfold rejectIf
      rw [if_neg hpos]
      refine (bind_ok (p := (pure () : TokenM Unit)) rfl).trans ?_
      rw [hnonneg]
      rfl

structure Ast.CorrelateBlock.Written (c : CorrelateBlock) : Prop where
  binding : IsPlainWord c.binding
  source : c.source.Written
  topo : c.topo.Written
  time : c.time.Written
  minMatch : ∀ n ∈ c.minMatch, n < 2 ^ 63

theorem parseCorrelateBlock_reprints {c : CorrelateBlock} (h : c.Written) :
    ∃ ts, Spells false (emitCorrelate opts level c) (.kw .correlate :: ts) ∧
      Reprints c.time.Kept parseCorrelateBlock (.kw .correlate :: ts) c := by
  obtain ⟨srcs, hsrcspells, hsrcread⟩ := parseCorrelateSource_prints h.source
  obtain ⟨topos, htopospells, htoporead⟩ := parseTopoPredicate_prints h.topo
  obtain ⟨times, htimespells, hkept, hloose⟩ := parseTimeWindow_reprints h.time
  obtain ⟨mins, hminspells, hminread⟩ :=
    minMatch_prints opts level h.minMatch
  have hkw : Spells false "correlate ".toList [.kw .correlate] := .piece rfl rfl rfl
  have hcolon : Spells false ": ".toList [.colon] := .piece rfl rfl rfl
  have hopen : Spells false " \x7b\n".toList [.lBrace] :=
    (Spells.blanks 1).append (.piece rfl rfl rfl)
  have htopo : Spells false "topo: ".toList [.ident "topo", .colon] := .piece rfl rfl rfl
  have htime : Spells false "time: ".toList [.ident "time", .colon] := .piece rfl rfl rfl
  have hline : Spells false "\n".toList [] := .piece rfl rfl rfl
  have hclose : Spells false "\x7d\n".toList [.rBrace] := .piece rfl rfl rfl
  have htext : emitCorrelate opts level c = indentStr opts level ++ ("correlate ".toList ++
      (c.binding.toList ++ (": ".toList ++ (emitCorrelateSource c.source ++ (" \x7b\n".toList ++
        (indentStr opts (level + 1) ++ ("topo: ".toList ++ (emitTopo c.topo ++ ("\n".toList ++
          (indentStr opts (level + 1) ++ ("time: ".toList ++ (emitTimeWindow c.time ++
            ("\n".toList ++ (emitMinMatch opts level c.minMatch ++ (indentStr opts level ++
              "\x7d\n".toList))))))))))))))) := by
    delta emitCorrelate
    simp only [List.append_assoc]
  have hspells := (spells_indent opts level).append (hkw.append ((Spells.word h.binding.1).before
    (hcolon.append (hsrcspells.append (hopen.append ((spells_indent opts (level + 1)).append
      (htopo.append (htopospells.append (hline.append ((spells_indent opts (level + 1)).append
        (htime.append (htimespells.append (hline.append (hminspells.append
          ((spells_indent opts level).append hclose))))))))))))) rfl))
  -- everything in front of the time window is read
  have hhead : ∀ rest, parseCorrelateBlock (.kw .correlate :: word c.binding :: .colon ::
      (srcs ++ .lBrace :: .ident "topo" :: .colon :: (topos ++ .ident "time" :: .colon :: rest))) =
      (parseTimeWindow >>= fun time => optional_ (.kw .having) parseMinMatch >>= fun minMatch =>
        punct .rBrace >>= fun _ => pure ⟨c.binding, c.source, c.topo, time, minMatch⟩) rest := by
    intro rest
    unfold parseCorrelateBlock
    rw [bind_ok (consumeKw_ok _ _), bind_ok (parseBinding_ok h.binding _),
      bind_ok (hsrcread _ rfl), bind_ok (punct_ok _ _), bind_ok (consumeWordExact_ok _ _),
      bind_ok (punct_ok _ _), bind_ok (htoporead _ rfl), bind_ok (consumeWordExact_ok _ _),
      bind_ok (punct_ok _ _)]
  rw [htext]
  refine ⟨word c.binding :: .colon :: (srcs ++ Token.lBrace :: .ident "topo" :: .colon ::
    (topos ++ Token.ident "time" :: .colon :: (times ++ (mins ++ [Token.rBrace])))), hspells,
    fun hk rest => ?_, fun hk rest => ?_⟩
  · simp only [List.append_assoc, List.cons_append, List.nil_append]
    rw [hhead, bind_ok (hkept hk _), bind_ok (hminread (.rBrace :: rest) rfl),
      bind_ok (punct_ok _ _)]
    rfl
  · simp only [List.append_assoc, List.cons_append, List.nil_append]
    rw [hhead]
    obtain ⟨e, s, herror⟩ := hloose hk (mins ++ .rBrace :: rest)
    exact ⟨e, s, Scanner.bind_error herror⟩

/-- The first element of a list for which something fails. -/
theorem first_failing {P : α → Prop} (h : ¬ ∀ a ∈ as, P a) :
    ∃ done a more, as = done ++ a :: more ∧ (∀ a ∈ done, P a) ∧ ¬ P a := by
  induction as with
  | nil => exact absurd (fun _ ha => by cases ha) h
  | cons a as ih =>
      by_cases ha : P a
      · have hmore : ¬ ∀ b ∈ as, P b := fun hall => h (List.forall_mem_cons.mpr ⟨ha, hall⟩)
        obtain ⟨done, b, more, rfl, hdone, hb⟩ := ih hmore
        exact ⟨a :: done, b, more, rfl, List.forall_mem_cons.mpr ⟨ha, hdone⟩, hb⟩
      · exact ⟨[], a, as, rfl, fun _ hb => (by cases hb), ha⟩

theorem correlates_reprint {correlates : List CorrelateBlock}
    (h : ∀ c ∈ correlates, c.Written) : ∃ ts,
      Spells false (correlates.flatMap (emitCorrelate opts level)) ts ∧
      (∀ rest, current rest ≠ .lBrace → current (ts ++ rest) ≠ .lBrace) ∧
      ((∀ c ∈ correlates, c.time.Kept) → ∀ rest, atCorrelate rest = false →
        repeated (fun ts => !atCorrelate ts) parseCorrelateBlock (ts ++ rest) =
          .ok correlates rest) ∧
      ((¬ ∀ c ∈ correlates, c.time.Kept) → ∀ rest, ∃ e s,
        repeated (fun ts => !atCorrelate ts) parseCorrelateBlock (ts ++ rest) = .error e s) := by
  let encode : CorrelateBlock → List Token := fun c => tokensOf (emitCorrelate opts level c)
  have hone : ∀ c ∈ correlates, Spells false (emitCorrelate opts level c) (encode c) ∧
      (∃ ts, encode c = .kw .correlate :: ts) ∧
        Reprints c.time.Kept parseCorrelateBlock (encode c) c := by
    intro c hc
    obtain ⟨ts, hspells, hreprints⟩ :=
      parseCorrelateBlock_reprints opts level (h c hc)
    have hencode : encode c = .kw .correlate :: ts := hspells.tokensOf_eq
    rw [hencode]
    exact ⟨hspells, ⟨ts, rfl⟩, hreprints⟩
  have hgo : ∀ c ∈ correlates, ∀ rest, (!atCorrelate (encode c ++ rest)) = false := by
    intro c hc rest
    obtain ⟨-, ⟨ts, hencode⟩, -⟩ := hone c hc
    rw [hencode]
    rfl
  refine ⟨correlates.flatMap encode, spells_flatMap fun c hc => (hone c hc).1, ?_, ?_, ?_⟩
  · intro rest hrest
    cases correlates with
    | nil => exact hrest
    | cons c more =>
        obtain ⟨-, ⟨ts, hencode⟩, -⟩ := hone c (List.mem_cons_self ..)
        rw [List.flatMap_cons, hencode]
        exact fun hbrace => by cases hbrace
  · intro hkept rest hrest
    refine repeated_ok (fun c hc => (hone c hc).2.2.reads (hkept c hc)) hgo ?_
    rw [hrest]
    rfl
  · intro hloose rest
    obtain ⟨done, c, more, rfl, hdone, hc⟩ := first_failing hloose
    have hmem : c ∈ done ++ c :: more := List.mem_append_right _ (List.mem_cons_self ..)
    obtain ⟨e, s, herror⟩ := (hone c hmem).2.2.refuses hc (more.flatMap encode ++ rest)
    rw [List.flatMap_append, List.flatMap_cons, List.append_assoc, List.append_assoc]
    refine repeated_error (fun b hb => ?_) (fun b hb => ?_) (hgo c hmem _) herror
    · exact (hone b (List.mem_append_left _ hb)).2.2.reads (hdone b hb)
    · exact hgo b (List.mem_append_left _ hb)

/-! ### Bodies of rules -/

/-- What the statements of a rule, and the brace behind them, begin with. -/
def startsBody (t : Token) : Bool := startsStmt t || decide (t = .rBrace) || decide (t = .eof)

/-- A statement of a rule, in a rule of its kind. -/
def Ast.Stmt.Placed (evidence : Bool) (stmt : Stmt) : Prop :=
  stmt.Written ∧ misplaced? evidence stmt = none

theorem body_prints {evidence : Bool} {body : List Stmt}
    (h : ∀ stmt ∈ body, stmt.Placed evidence) : ∃ ts,
      Spells false (body.flatMap (emitStmt opts level)) ts ∧ ∀ rest,
        repeated atClose (parseStmtInRule evidence) (ts ++ .rBrace :: rest) =
          .ok body (.rBrace :: rest) ∧
        startsBody (current (ts ++ .rBrace :: rest)) = true := by
  obtain ⟨ts, hspells, hread⟩ := repeated_prints (emitStmt opts level)
    parseStmtInRule_fails
    fun stmt hstmt => parseStmtInRule_prints _ _ (h stmt hstmt).1 (h stmt hstmt).2
  refine ⟨ts, hspells, fun rest => ⟨hread _ rfl, ?_⟩⟩
  unfold startsBody
  obtain hclose | ⟨stmt, s, hstmt⟩ := repeated_starts (hread (.rBrace :: rest) rfl)
  · unfold atClose at hclose
    rw [Bool.or_assoc, hclose, Bool.or_true]
  · rw [parseStmtInRule_starts hstmt]
    rfl

theorem startsBody_ne (h : startsBody t = true) :
    t ≠ .lBrace ∧ t ≠ .kw .correlate ∧ t ≠ .kw .if_ ∧ t ≠ .kw .else_ := by
  refine ⟨?_, ?_, ?_, ?_⟩ <;> rintro rfl <;> cases h

theorem ifElse_prints {ifElse : Option IfElseBlock} (h : ∀ block ∈ ifElse, block.Written) :
    ∃ ts, Spells false (emitOptionalIfElse opts level ifElse) ts ∧ ∀ rest,
      startsBody (current rest) = true →
        optional_ (.kw .if_) parseIfElseBlock (ts ++ rest) = .ok ifElse rest ∧
        current (ts ++ rest) ≠ .lBrace ∧ current (ts ++ rest) ≠ .kw .correlate := by
  cases ifElse with
  | none =>
      refine ⟨[], .nil, fun rest hrest => ?_⟩
      obtain ⟨hbrace, hcorrelate, hif, -⟩ := startsBody_ne hrest
      exact ⟨optional_none hif, hbrace, hcorrelate⟩
  | some block =>
      obtain ⟨ts, hspells, hread⟩ :=
        parseIfElseBlock_prints opts level (h block rfl)
      refine ⟨ts, hspells, fun rest hrest => ?_⟩
      have hvalue := hread rest (decide_eq_true (startsBody_ne hrest).2.2.2)
      have hstart : current (ts ++ rest) = .kw .if_ := consumeKw_starts hvalue
      rw [hstart]
      exact ⟨optional_some hvalue hstart, by decide, by decide⟩

/-- What follows the anchor of a rule. -/
theorem ruleBody_reprints {evidence : Bool} {correlates : List CorrelateBlock}
    {ifElse : Option IfElseBlock} {body : List Stmt} (hcorrelates : ∀ c ∈ correlates, c.Written)
    (hifElse : ∀ block ∈ ifElse, block.Written) (hbody : ∀ stmt ∈ body, stmt.Placed evidence) :
    ∃ ts, Spells false (correlates.flatMap (emitCorrelate opts level) ++
        (emitOptionalIfElse opts level ifElse ++ body.flatMap (emitStmt opts level))) ts ∧
      (∀ rest, current (ts ++ .rBrace :: rest) ≠ .lBrace) ∧
      Reprints (∀ c ∈ correlates, c.time.Kept) (parseRuleBody evidence) (ts ++ [.rBrace])
        (correlates, ifElse, body) := by
  obtain ⟨cts, hcspells, hcopen, hckept, hcloose⟩ :=
    correlates_reprint opts level hcorrelates
  obtain ⟨its, hispells, hiread⟩ := ifElse_prints opts level hifElse
  obtain ⟨bts, hbspells, hbread⟩ := body_prints opts level hbody
  refine ⟨_, hcspells.append (hispells.append hbspells), fun rest => ?_, fun hk rest => ?_,
    fun hk rest => ?_⟩
  · obtain ⟨-, hstart⟩ := hbread rest
    obtain ⟨-, hopen, -⟩ := hiread _ hstart
    rw [List.append_assoc, List.append_assoc]
    exact hcopen _ hopen
  · obtain ⟨hstmts, hstart⟩ := hbread rest
    obtain ⟨hblock, -, hcorrelate⟩ := hiread _ hstart
    simp only [List.append_assoc, List.cons_append, List.nil_append]
    unfold parseRuleBody
    rw [bind_ok (hckept hk _ (decide_eq_false hcorrelate)), bind_ok hblock, bind_ok hstmts,
      bind_ok (punct_ok _ _)]
    rfl
  · obtain ⟨e, s, herror⟩ := hcloose hk (its ++ (bts ++ .rBrace :: rest))
    simp only [List.append_assoc, List.cons_append, List.nil_append]
    exact ⟨e, s, Scanner.bind_error herror⟩

/-! ### Rules -/

theorem isPlainWord_scope (scope : ScopeType) : IsPlainWord (scopeStr scope) := by
  cases scope <;>
    exact ⟨⟨⟨_, _, rfl, rfl⟩, List.all_eq_true.mp rfl, by decide, by decide⟩, rfl⟩

theorem parseScopeType_ok (scope : ScopeType) (rest : List Token) :
    parseScopeType (word (scopeStr scope) :: rest) = .ok scope rest := by
  have hname : scopeType? (scopeStr scope) = some scope := by cases scope <;> rfl
  unfold parseScopeType known
  refine (bind_ok (identAny_ok (.inl (isPlainWord_scope scope)) rest)).trans ?_
  rw [hname]
  rfl

/-- The head of a rule, with its anchor. -/
theorem ruleHead_prints {kw : Keyword} {anchorText : List Char} (scope : ScopeType)
    (hkw : Spells false cs [.kw kw]) (hname : IsPlainWord s)
    (hanchor : Prints false (fun t => decide (t ≠ .lBrace)) p anchorText a) : ∃ ts,
      Spells false (cs ++ (s.toList ++ (" \x7b\n".toList ++ (emitScope opts level scope ++
        anchorText)))) (.kw kw :: ts) ∧
      ∀ rest, current rest ≠ .lBrace →
        parseRuleHead kw p (.kw kw :: ts ++ rest) = .ok (s, scope, a) rest := by
  obtain ⟨ats, haspells, haread⟩ := hanchor
  have hopen : Spells false " \x7b\n".toList [.lBrace] :=
    (Spells.blanks 1).append (.piece rfl rfl rfl)
  have hscope : Spells false "scope: ".toList [.kw .scope, .colon] := .piece rfl rfl rfl
  have hline : Spells false "\n".toList [] := .piece rfl rfl rfl
  have htext : emitScope opts level scope = indentStr opts level ++ ("scope: ".toList ++
      ((scopeStr scope).toList ++ "\n".toList)) := by
    delta emitScope
    simp only [List.append_assoc]
  have hscopeLine : Spells false (emitScope opts level scope)
      [.kw .scope, .colon, word (scopeStr scope)] := by
    rw [htext]
    exact (spells_indent opts level).append
      (hscope.append ((Spells.word (isPlainWord_scope scope).1).before hline rfl))
  have hall :=
    hkw.append ((Spells.word hname.1).before (hopen.append (hscopeLine.append haspells)) rfl)
  refine ⟨word s :: .lBrace :: .kw .scope :: .colon :: word (scopeStr scope) :: ats, hall,
    fun rest hrest => ?_⟩
  unfold parseRuleHead
  simp only [List.cons_append]
  rw [bind_ok (consumeKw_ok _ _), bind_ok (identNonKw_ok hname _), bind_ok (punct_ok _ _),
    bind_ok (consumeKw_ok _ _), bind_ok (punct_ok _ _), bind_ok (parseScopeType_ok scope _),
    bind_ok (haread rest (decide_eq_true hrest))]
  rfl

structure Ast.EvidenceRule.Written (rule : EvidenceRule) : Prop where
  name : IsPlainWord rule.name
  anchor : rule.anchor.Written
  correlates : ∀ c ∈ rule.correlates, CorrelateBlock.Written c
  ifElse : ∀ block ∈ rule.ifElse, IfElseBlock.Written block
  body : ∀ stmt ∈ rule.body, Stmt.Placed true stmt

structure Ast.DecisionRule.Written (rule : DecisionRule) : Prop where
  name : IsPlainWord rule.name
  anchor : rule.anchor.Written
  correlates : ∀ c ∈ rule.correlates, CorrelateBlock.Written c
  ifElse : ∀ block ∈ rule.ifElse, IfElseBlock.Written block
  body : ∀ stmt ∈ rule.body, Stmt.Placed false stmt

def Ast.RuleDecl.Written : RuleDecl → Prop
  | .evidence rule => rule.Written
  | .decision rule => rule.Written

/-- The probes of all time windows stand in front of `in` as they are. -/
def Ast.RuleDecl.Kept (rule : RuleDecl) : Prop := ∀ c ∈ rule.correlates, c.time.Kept

instance (rule : RuleDecl) : Decidable rule.Kept :=
  inferInstanceAs (Decidable (∀ c ∈ rule.correlates, c.time.Kept))

theorem emitRule_eq (kw : List Char) (name : String) (scope : ScopeType) (anchor : List Char)
    (correlates : List CorrelateBlock) (ifElse : Option IfElseBlock) (body : List Stmt) :
    emitRule opts level kw name scope anchor correlates ifElse body = indentStr opts level ++
      ((kw ++ (name.toList ++ (" \x7b\n".toList ++ (emitScope opts (level + 1) scope ++ anchor)))) ++
        ((correlates.flatMap (emitCorrelate opts (level + 1)) ++
          (emitOptionalIfElse opts (level + 1) ifElse ++
            body.flatMap (emitStmt opts (level + 1)))) ++
          (indentStr opts level ++ "\x7d\n".toList))) := by
  delta emitRule
  simp only [List.append_assoc]

/-- A rule, of which the head and the body are read one after the other. -/
theorem rule_reprints {kw : Keyword} (scope : ScopeType) {anchorText : List Char}
    {evidence : Bool} {correlates : List CorrelateBlock} {ifElse : Option IfElseBlock}
    {body : List Stmt} {q : TokenM β} {b : β} (hkw : Spells false cs [.kw kw])
    (hname : IsPlainWord s)
    (hanchor : Prints false (fun t => decide (t ≠ .lBrace)) p anchorText a)
    (hcorrelates : ∀ c ∈ correlates, c.Written) (hifElse : ∀ block ∈ ifElse, block.Written)
    (hbody : ∀ stmt ∈ body, stmt.Placed evidence)
    (hq : ∀ ts rest, parseRuleHead kw p ts = .ok (s, scope, a) rest →
      (∀ rest', parseRuleBody evidence rest = .ok (correlates, ifElse, body) rest' →
        q ts = .ok b rest') ∧
      ∀ e s, parseRuleBody evidence rest = .error e s → q ts = .error e s) :
    ∃ ts, Spells false (emitRule opts level cs s scope anchorText correlates ifElse body)
        (.kw kw :: ts) ∧ Reprints (∀ c ∈ correlates, c.time.Kept) q (.kw kw :: ts) b := by
  obtain ⟨hts, hhspells, hhread⟩ :=
    ruleHead_prints opts (level + 1) scope hkw hname hanchor
  obtain ⟨bts, hbspells, hbopen, hbreprints⟩ :=
    ruleBody_reprints opts (level + 1) hcorrelates hifElse hbody
  have hclose : Spells false "\x7d\n".toList [.rBrace] := .piece rfl rfl rfl
  rw [emitRule_eq _ _]
  refine ⟨hts ++ (bts ++ [Token.rBrace]), (spells_indent opts level).append (hhspells.append
    (hbspells.append ((spells_indent opts level).append hclose))), fun hk rest => ?_,
    fun hk rest => ?_⟩
  · have hread := hbreprints.reads hk rest
    rw [← List.cons_append, List.append_assoc]
    refine (hq _ _ (hhread _ ?_)).1 rest hread
    rw [List.append_assoc]
    exact hbopen rest
  · obtain ⟨e, s, herror⟩ := hbreprints.refuses hk rest
    rw [← List.cons_append, List.append_assoc]
    refine ⟨e, s, (hq _ _ (hhread _ ?_)).2 e s herror⟩
    rw [List.append_assoc]
    exact hbopen rest

theorem parseEvidenceRule_reprints {rule : EvidenceRule} (h : rule.Written) :
    ∃ ts, Spells false (emitEvidence opts level rule) (.kw .evidence :: ts) ∧
      Reprints (∀ c ∈ rule.correlates, c.time.Kept) parseEvidenceRule (.kw .evidence :: ts)
        rule := by
  refine rule_reprints opts level rule.scope (.piece rfl rfl rfl) h.name
    (parseAnchorBlock_prints _ _ h.anchor) h.correlates h.ifElse h.body
    fun ts rest hhead => ⟨fun rest' hbody => ?_, fun e s hbody => ?_⟩
  · unfold parseEvidenceRule
    rw [bind_ok hhead]
    exact bind_ok hbody
  · unfold parseEvidenceRule
    rw [bind_ok hhead]
    exact Scanner.bind_error hbody

theorem parseDecisionRule_reprints {rule : DecisionRule} (h : rule.Written) :
    ∃ ts, Spells false (emitDecision opts level rule) (.kw .decision :: ts) ∧
      Reprints (∀ c ∈ rule.correlates, c.time.Kept) parseDecisionRule (.kw .decision :: ts)
        rule := by
  refine rule_reprints opts level rule.scope (.piece rfl rfl rfl) h.name
    (parseDecisionAnchor_prints _ _ h.anchor) h.correlates h.ifElse h.body
    fun ts rest hhead => ⟨fun rest' hbody => ?_, fun e s hbody => ?_⟩
  · unfold parseDecisionRule
    rw [bind_ok hhead]
    exact bind_ok hbody
  · unfold parseDecisionRule
    rw [bind_ok hhead]
    exact Scanner.bind_error hbody

theorem Reprints.map {kept : Prop} {f : α → β} {q : TokenM β} (h : Reprints kept p ts a)
    (hq : ∀ rest, q (ts ++ rest) = (f <$> p) (ts ++ rest)) : Reprints kept q ts (f a) where
  reads := by
    intro hk rest
    rw [hq]
    exact map_ok (h.reads hk rest)
  refuses := by
    intro hk rest
    obtain ⟨e, s, herror⟩ := h.refuses hk rest
    rw [hq, map_eq_pure_bind]
    exact ⟨e, s, Scanner.bind_error herror⟩

/-- The text of a rule begins with one of two keywords. -/
theorem parseRule_reprints {rule : RuleDecl} (h : rule.Written) : ∃ k ts,
    (k = .evidence ∨ k = .decision) ∧ Spells false (emitRuleDecl opts level rule) (.kw k :: ts) ∧
      Reprints rule.Kept parseRule (.kw k :: ts) rule := by
  cases rule with
  | evidence rule =>
      obtain ⟨ts, hspells, hreprints⟩ :=
        parseEvidenceRule_reprints opts level h
      exact ⟨.evidence, ts, .inl rfl, hspells, hreprints.map fun rest => rfl⟩
  | decision rule =>
      obtain ⟨ts, hspells, hreprints⟩ :=
        parseDecisionRule_reprints opts level h
      exact ⟨.decision, ts, .inr rfl, hspells, hreprints.map fun rest => rfl⟩

end Adgl
