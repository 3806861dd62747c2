import NFdl.Adgl.Comments
import NFdl.Adgl.ParserBounds
import NFdl.Adgl.RulesetReadBack
import NFdl.Adgl.Written

/-!
# Formatting an ADGL source

The formatter puts the comments of a source in front of the text of its ruleset. What it prints
is read back as that ruleset, in so far as the parser reads it at all, and its comments are those
of the source.
-/

namespace Adgl

open Lexer Fmt RulesetParser
open Text (byteLength)

variable {src out cs : List Char} {ts : List Token} {ruleset : SourceRuleset}
variable {opts : FormatOptions}

/-! ### Accepted sources -/

/-- A source is accepted where the parser without recovery reads its tokens. -/
theorem parseRuleset_eq_ok_iff : parseRuleset cs = .ok ruleset ↔ ∃ ts, tokenize cs = .ok ts ∧
    ∃ i, rulesetParser ⟨⟨ts, 0⟩, false, []⟩ = .ok ruleset ⟨i, false, []⟩ := by
  unfold parseRuleset
  cases htokens : tokenize cs with
  | error e =>
      refine ⟨fun h => (by cases h), ?_⟩
      rintro ⟨ts, hts, -⟩
      cases hts
  | ok ts =>
      dsimp only
      have hiff : (∃ ts', Except.ok (ε := ParseErr) ts = .ok ts' ∧
          ∃ i, rulesetParser ⟨⟨ts', 0⟩, false, []⟩ = .ok ruleset ⟨i, false, []⟩) ↔
          ∃ i, rulesetParser ⟨⟨ts, 0⟩, false, []⟩ = .ok ruleset ⟨i, false, []⟩ := by
        constructor
        · rintro ⟨ts', hts, hread⟩
          cases hts
          exact hread
        · exact fun hread => ⟨ts, rfl, hread⟩
      rw [hiff]
      obtain ⟨ast, i, hfast, hrecover⟩ | ⟨e, s, hfast, hled⟩ :=
        rulesetParser_agrees.agree ⟨ts, 0⟩ []
      · rw [hfast, hrecover]
        constructor
        · rintro ⟨⟩
          exact ⟨i, rfl⟩
        · rintro ⟨j, hj⟩
          cases hj
          rfl
      · rw [hfast]
        refine ⟨fun h => ?_, fun ⟨i, hi⟩ => (by cases hi)⟩
        cases hr : rulesetParser ⟨⟨ts, 0⟩, true, []⟩ with
        | ok ast s =>
            rw [hr] at hled h
            obtain ⟨more, hmore⟩ := hled
            dsimp only at h
            rw [hmore, List.nil_append, if_neg (List.cons_ne_nil _ _)] at h
            cases h
        | error e' s =>
            rw [hr] at h
            cases h

/-- Only what can be written is read from a source. -/
theorem parseRuleset_written (h : parseRuleset cs = .ok ruleset) : ruleset.Written := by
  obtain ⟨ts, htokens, i, hread⟩ := parseRuleset_eq_ok_iff.mp h
  obtain ⟨-, hlex, -⟩ := tokenize_eq_ok_iff.mp htokens
  exact (rulesetParser_gives ⟨lex_lexed hlex, rfl⟩ hread).1

/-! ### The formatted text -/

theorem emitSource_eq (comments : List (List Char)) (ruleset : SourceRuleset)
    (opts : FormatOptions) :
    emitSource comments ruleset opts = emitComments comments ++ emitRuleset ruleset opts := by
  have hlast : (emitComments comments ++ emitRuleset ruleset opts).getLast? = some '\n' := by
    unfold emitRuleset
    rw [← List.append_assoc, List.getLast?_append]
    rfl
  exact if_pos hlast

theorem format_eq_ok_iff : formatAdglSourceWith src opts = .ok out ↔
    ∃ ruleset, parseRuleset src = .ok ruleset ∧
      out = emitComments (collectAdglComments src) ++ emitRuleset ruleset opts := by
  unfold formatAdglSourceWith
  cases parseRuleset src with
  | error ds =>
      refine ⟨fun h => (by cases h), ?_⟩
      rintro ⟨ruleset, h, -⟩
      cases h
  | ok ruleset =>
      constructor
      · rintro ⟨⟩
        exact ⟨ruleset, rfl, emitSource_eq _ _ _⟩
      · rintro ⟨ruleset', h, rfl⟩
        cases h
        exact congrArg Except.ok (emitSource_eq _ _ _)

/-- The lexer reads the formatted text as the tokens of the ruleset, whatever comments stand in
front. -/
theorem format_reads (hwritten : ruleset.Written) (comments : List (List Char))
    (hcomments : ∀ text ∈ comments, IsComment text) (opts : FormatOptions) : ∃ ts,
      lex (emitComments comments ++ emitRuleset ruleset opts) = .ok ts ∧
      collectAdglComments (emitComments comments ++ emitRuleset ruleset opts) = comments ∧
      RulesetReads ruleset ts := by
  obtain ⟨ts, hspells, hreads⟩ := emitRuleset_reads hwritten opts
  refine ⟨ts, ?_, ?_, hreads⟩
  · rw [lex_comments hcomments]
    exact hspells.lex_eq
  · have hnone := hspells.collect_append []
    rw [List.append_nil] at hnone
    unfold collectAdglComments
    rw [collect_comments hcomments, hnone]
    exact List.append_nil _

/-- What is read from the tokens of a ruleset is the ruleset. -/
theorem RulesetReads.unique {ruleset' : SourceRuleset} {i : Input} (h : RulesetReads ruleset ts)
    (hread : rulesetParser ⟨⟨ts, 0⟩, false, []⟩ = .ok ruleset' ⟨i, false, []⟩) :
    ruleset' = ruleset ∧ ruleset.Kept := by
  by_cases hkept : ruleset.Kept
  · obtain ⟨j, hj⟩ := h.reads hkept
    rw [hj] at hread
    cases hread
    exact ⟨rfl, hkept⟩
  · obtain ⟨e, s, herror⟩ := h.refuses hkept
    rw [herror] at hread
    cases hread

/-- The formatted text of a source is read back as the ruleset of the source, up to spans and
documentation, or not at all. It is refused where a window's probe loses its parentheses, and
where the text is too long or nested too deep for the lexer. Formatting keeps the comments of the
source. -/
theorem formatted_source_read_back (h : formatAdglSourceWith src opts = .ok out) :
    collectAdglComments out = collectAdglComments src ∧
      ∃ ruleset ts, parseRuleset src = .ok ruleset ∧ lex out = .ok ts ∧
        ∀ parsed, parseRuleset out = .ok parsed ↔ parsed = ruleset ∧ ruleset.Kept ∧
          byteLength out ≤ 4 * 1024 * 1024 ∧ nests 0 ts = true := by
  obtain ⟨ruleset, hparse, rfl⟩ := format_eq_ok_iff.mp h
  obtain ⟨ts, hlex, hcomments, hreads⟩ := format_reads (parseRuleset_written hparse)
    (collectAdglComments src) (collect_isComment src) opts
  refine ⟨hcomments, ruleset, ts, hparse, hlex, fun parsed => ?_⟩
  rw [parseRuleset_eq_ok_iff]
  constructor
  · rintro ⟨ts', htokens, i, hread⟩
    obtain ⟨hshort, hlex', hnests⟩ := tokenize_eq_ok_iff.mp htokens
    obtain rfl : ts = ts' := Except.ok.inj (hlex.symm.trans hlex')
    obtain ⟨hsame, hkept⟩ := hreads.unique hread
    exact ⟨hsame, hkept, hshort, hnests⟩
  · rintro ⟨rfl, hkept, hshort, hnests⟩
    exact ⟨ts, tokenize_eq_ok_iff.mpr ⟨hshort, hlex, hnests⟩, hreads.reads hkept⟩

/-- A rule with a time window, with comments and a name that looks like one. -/
def windowSource : List Char :=
  "ruleset \"//\"\x7bversion=\"1\"// x\nevidence e\x7bscope:Port anchor a:event(t)".toList ++
    "correlate c:event(u)\x7btopo:f(a)time:c in[a,(a+5s)]\x7d\x7d\x7d".toList

def windowFormatted : List Char :=
  "// x\nruleset \"//\" \x7b\nversion = \"1\"\n\nevidence e \x7b\nscope: Port\n".toList ++
    "anchor a: event(t)\ncorrelate c: event(u) \x7b\ntopo: f(a)\n".toList ++
    "time: c in [a, a + 5s]\n\x7d\n\x7d\n\x7d\n".toList

theorem window_formatted : formatAdglSourceWith windowSource ⟨0⟩ = .ok windowFormatted := by
  decide +kernel

/-- The formatted text with indentation. -/
def windowIndented : List Char :=
  "// x\nruleset \"//\" \x7b\n version = \"1\"\n\n evidence e \x7b\n  scope: Port\n".toList ++
    "  anchor a: event(t)\n  correlate c: event(u) \x7b\n   topo: f(a)\n".toList ++
    "   time: c in [a, a + 5s]\n  \x7d\n \x7d\n\x7d\n".toList

theorem window_indented : formatAdglSourceWith windowFormatted ⟨1⟩ = .ok windowIndented := by
  decide +kernel

/-- The window is read back from the formatted text, with its comment and its rule. -/
theorem formatted_version_read_back :
    collectAdglComments windowFormatted = collectAdglComments windowSource ∧
      ∃ ruleset, parseRuleset windowSource = .ok ruleset ∧
        parseRuleset windowFormatted = .ok ruleset ∧ ruleset.Kept := by
  obtain ⟨hcomments, ruleset, ts, hsource, -, hread⟩ := formatted_source_read_back window_formatted
  obtain ⟨parsed, hparsed, -⟩ := format_eq_ok_iff.mp window_indented
  obtain ⟨rfl, hkept, -⟩ := (hread parsed).mp hparsed
  exact ⟨hcomments, parsed, hsource, hparsed, hkept⟩

/-- Formatting the formatted text of a source is formatting the source. -/
theorem format_formatted {opts' : FormatOptions} {out' : List Char}
    (h : formatAdglSourceWith src opts = .ok out) (h' : formatAdglSourceWith out opts' = .ok out') :
    formatAdglSourceWith src opts' = .ok out' := by
  obtain ⟨ruleset, hparse, rfl⟩ := format_eq_ok_iff.mp h
  obtain ⟨ruleset', hparse', rfl⟩ := format_eq_ok_iff.mp h'
  obtain ⟨ts, hlex, hcomments, hreads⟩ := format_reads (parseRuleset_written hparse)
    (collectAdglComments src) (collect_isComment src) opts
  obtain ⟨ts', htokens, i, hread⟩ := parseRuleset_eq_ok_iff.mp hparse'
  obtain ⟨-, hlex', -⟩ := tokenize_eq_ok_iff.mp htokens
  obtain rfl : ts = ts' := Except.ok.inj (hlex.symm.trans hlex')
  have hsame := (hreads.unique hread).1
  rw [hcomments, hsame]
  exact format_eq_ok_iff.mpr ⟨ruleset, hparse, rfl⟩

/-- However often a source is formatted, and with whatever options, the text is the one that the
last options give for the source. -/
theorem formatted_again (first : FormatOptions) (more : List FormatOptions)
    (h : (first :: more).foldlM formatAdglSourceWith src = .ok out) :
    formatAdglSourceWith src ((first :: more).getLast (List.cons_ne_nil _ _)) = .ok out := by
  induction more generalizing first src with
  | nil =>
      rw [List.foldlM_cons] at h
      cases hfirst : formatAdglSourceWith src first with
      | error ds =>
          rw [hfirst] at h
          cases h
      | ok text =>
          rw [hfirst] at h
          cases h
          exact hfirst
  | cons second more ih =>
      rw [List.foldlM_cons] at h
      cases hfirst : formatAdglSourceWith src first with
      | error ds =>
          rw [hfirst] at h
          cases h
      | ok text =>
          rw [hfirst] at h
          have hmore : (second :: more).foldlM formatAdglSourceWith text = .ok out := h
          rw [List.getLast_cons (List.cons_ne_nil _ _)]
          exact format_formatted hfirst (ih second hmore)

/-- Two runs of the formatter, one after the other. -/
theorem format_twice {mid : List Char} {opts' : FormatOptions}
    (h : formatAdglSourceWith src opts = .ok mid) (h' : formatAdglSourceWith mid opts' = .ok out) :
    [opts, opts'].foldlM formatAdglSourceWith src = .ok out := by
  rw [List.foldlM_cons, h]
  show [opts'].foldlM formatAdglSourceWith mid = .ok out
  rw [List.foldlM_cons, h']
  rfl

theorem formatted_version_again : formatAdglSourceWith windowSource ⟨1⟩ = .ok windowIndented :=
  formatted_again ⟨0⟩ [⟨1⟩] (format_twice window_formatted window_indented)

end Adgl
