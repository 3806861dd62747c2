import NFdl.Adgl.ParserBounds
import NFdl.Adgl.RuleReadBack

/-!
# Printed ADGL rulesets read back

The members of a ruleset are read by a loop with recovery, which changes nothing where there
is no error. The first member that is refused ends the parser without recovery.
-/

namespace Adgl

open Ast Lexer Fmt RulesetParser
open Scanner (bind_ok bind_error map_ok)

variable {α : Type} {p : TokenM α} {a : α} {as : List α} {cs : List Char}
variable {ts rest : List Token} (opts : FormatOptions) (level : ℕ)

/-! ### Declarations -/

def Ast.Decl.Written : Decl → Prop
  | .requires caps => caps.length ≤ 32
  | .mutuallyExclusive idents => idents ≠ [] ∧ ∀ s ∈ idents, IsName s

theorem parseRequiresDecl_prints {caps : List String} (h : caps.length ≤ 32) : ∃ ts,
    Spells false (emitRequires opts level caps) (.kw .requires :: ts) ∧
      ∀ rest, parseRequiresDecl (.kw .requires :: ts ++ rest) = .ok caps rest := by
  have hfail : ∀ ts, current ts = .rBracket → ∀ a s, stringLit ts ≠ .ok a s := by
    intro ts hts a s
    refine one_fails ?_ s
    rw [hts]
    rfl
  obtain ⟨ts, hspells, hread⟩ := listUntil_prints (F := fun _ => true) _ rfl rfl (by decide) hfail
    fun (s : String) (_ : s ∈ caps) => stringLit_prints s
  have hopen : Spells false "requires = [".toList [.kw .requires, .eq, .lBracket] :=
    .piece rfl rfl rfl
  have hclose : Spells false "]\n".toList [.rBracket] := .piece rfl rfl rfl
  have htext : emitRequires opts level caps = indentStr opts level ++ ("requires = [".toList ++
      (commas (caps.map emitStringLit) ++ "]\n".toList)) := by
    delta emitRequires
    simp only [List.append_assoc]
  rw [htext]
  refine ⟨.eq :: .lBracket :: (ts ++ [.rBracket]), (spells_indent opts level).append
    (hopen.append (hspells.before hclose rfl)), fun rest => ?_⟩
  simp only [List.append_assoc, List.cons_append, List.nil_append]
  have hlist := hread (.rBracket :: rest) rfl
  unfold parseRequiresDecl
  rw [bind_ok (consumeKw_ok _ _), bind_ok (punct_ok _ _), bind_ok (punct_ok _ _), bind_ok hlist]
  unfold rejectIf
  rw [if_neg (Nat.not_lt_of_le h)]
  exact bind_ok (p := (pure () : TokenM Unit)) rfl

theorem parseMutuallyExclusiveDecl_prints {idents : List String} (hne : idents ≠ [])
    (h : ∀ s ∈ idents, IsName s) : ∃ ts,
    Spells false ("\n".toList ++ emitMutuallyExclusive opts level idents)
        (.kw .mutuallyExclusive :: ts) ∧
      ∀ rest, parseMutuallyExclusiveDecl (.kw .mutuallyExclusive :: ts ++ rest) =
        .ok idents rest := by
  obtain ⟨ts, hspells, hread⟩ := commaSep_prints (F := fun _ => true) rfl
    (fun s hs => identAny_prints (h s hs)) hne
  have hline : Spells false "\n".toList [] := .piece rfl rfl rfl
  have hopen : Spells false "mutually_exclusive(".toList [.kw .mutuallyExclusive, .lParen] :=
    .piece rfl rfl rfl
  have hclose : Spells false ")\n".toList [.rParen] := .piece rfl rfl rfl
  have htext : emitMutuallyExclusive opts level idents = indentStr opts level ++
      ("mutually_exclusive(".toList ++ (commas (idents.map String.toList) ++ ")\n".toList)) := by
    delta emitMutuallyExclusive
    simp only [List.append_assoc]
  rw [htext]
  refine ⟨.lParen :: (ts ++ [.rParen]), hline.append ((spells_indent opts level).append
    (hopen.append (hspells.before hclose rfl))), fun rest => ?_⟩
  simp only [List.append_assoc, List.cons_append, List.nil_append]
  unfold parseMutuallyExclusiveDecl
  rw [bind_ok (consumeKw_ok _ _)]
  exact parenthesized_ok (F := fun t => true && decide (t ≠ .comma)) hread rfl rest

/-- The text of a declaration begins with one of two keywords. -/
theorem parseDecl_prints {decl : Decl} (h : decl.Written) : ∃ k ts,
    (k = .requires ∨ k = .mutuallyExclusive) ∧
      Spells false (emitDecl opts level decl) (.kw k :: ts) ∧
      ∀ rest, parseDecl (.kw k :: ts ++ rest) = .ok decl rest := by
  cases decl with
  | requires caps =>
      obtain ⟨ts, hspells, hread⟩ :=
        parseRequiresDecl_prints opts level h
      exact ⟨.requires, ts, .inl rfl, hspells, fun rest => map_ok (hread rest)⟩
  | mutuallyExclusive idents =>
      obtain ⟨ts, hspells, hread⟩ :=
        parseMutuallyExclusiveDecl_prints opts level h.1 h.2
      exact ⟨.mutuallyExclusive, ts, .inr rfl, hspells, fun rest => map_ok (hread rest)⟩

/-! ### Members -/

/-- A state without recovery and without errors, in front of some tokens. -/
structure Clean (s : Recovery.State Input ParseError) (ts : List Token) : Prop where
  tokens : s.input.tokens = ts
  recover : s.recover = false
  diags : s.diags = []

variable {s : Recovery.State Input ParseError} {stop : List Token → Bool}
variable {encode : α → List Token}

theorem item_reads (hs : Clean s ts) (h : p ts = .ok a rest) :
    ∃ s', (liftM (item p) : ItemM α) s = .ok a s' ∧ Clean s' rest := by
  have hitem : item p s.input = .ok a (s.input.leave rest) := by
    unfold item
    rw [hs.tokens, h]
  exact ⟨_, Recovery.silently_ok hitem, rfl, hs.recover, hs.diags⟩

theorem member_reads (hs : Clean s ts) (h : p ts = .ok a rest) (as : List α) :
    ∃ s', member p as s = .ok (as ++ [a]) s' ∧ Clean s' rest := by
  obtain ⟨s', hitem, hs'⟩ := item_reads hs h
  have hrecover : Recovery.recoverItem resyncDeclOrRule (item p : ItemM α) s =
      .ok (some a) s' := by
    unfold Recovery.recoverItem
    rw [hitem]
  exact ⟨s', bind_ok hrecover, hs'⟩

theorem member_refuses {e : ParseError} (hs : Clean s ts) (h : p ts = .error e rest)
    (as : List α) : ∃ e s', member p as s = .error e s' := by
  have hitem : (liftM (item p) : ItemM α) s =
      .error e ⟨s.input.leave rest, s.recover, s.diags⟩ := by
    change Recovery.silently (item p) s = _
    unfold Recovery.silently item
    rw [hs.tokens, h]
  have hrecover : Recovery.recoverItem resyncDeclOrRule (item p : ItemM α) s =
      .error e ⟨s.input.leave rest, s.recover, s.diags⟩ := by
    unfold Recovery.recoverItem
    rw [hitem]
    dsimp only
    rw [hs.recover]
    rfl
  exact ⟨_, _, bind_error hrecover⟩

section Members

variable (hread : ∀ a ∈ as, ∀ rest, p (encode a ++ rest) = .ok a rest)
variable (hgo : ∀ a ∈ as, ∀ rest, stop (encode a ++ rest) = false)
variable (hlong : ∀ a ∈ as, encode a ≠ [])

include hread hgo

theorem members_items : Scanner.Items Clean (fun _ => True) (fun s => stop s.input.tokens)
    (member p) encode (fun as a => as ++ [a]) as := by
  refine ⟨?_, ?_, fun _ _ _ _ => trivial⟩
  · intro bs b hb more s _ hs
    exact member_reads hs (hread b hb more) bs
  · intro b hb more s _ hs
    rw [hs.tokens]
    exact hgo b hb more

include hlong

theorem membersUntil_reads (hstop : stop rest = true)
    (hs : Clean s (as.flatMap encode ++ rest)) :
    ∃ s', membersUntil stop (member p) [] s = .ok as s' ∧ Clean s' rest := by
  obtain ⟨s', hloop, hs'⟩ := (members_items hread hgo).untilStop []
    (fun s => s.input.tokens.length) .overrun
    (fun _ _ hs => congrArg List.length hs.tokens) hlong trivial
    (fun s hs => hs.tokens ▸ hstop) hs
  rw [foldl_push] at hloop
  exact ⟨s', hloop, hs'⟩

theorem membersUntil_refuses {e : ParseError} {us : List Token} (hgoes : stop rest = false)
    (herror : p rest = .error e us) (hs : Clean s (as.flatMap encode ++ rest)) :
    ∃ e s', membersUntil stop (member p) [] s = .error e s' := by
  refine (members_items hread hgo).untilStop_error []
    (fun s => s.input.tokens.length) .overrun
    (fun _ _ hs => congrArg List.length hs.tokens) hlong trivial (fun as s hs => ?_) hs
  rw [hs.tokens]
  exact ⟨hgoes, member_refuses hs herror as⟩

end Members

/-! ### Rulesets -/

structure SourceRuleset.Written (ruleset : SourceRuleset) : Prop where
  decls : ∀ decl ∈ ruleset.decls, Decl.Written decl
  rules : ∀ rule ∈ ruleset.rules, RuleDecl.Written rule

/-- The probes of all time windows stand in front of `in` as they are. -/
def SourceRuleset.Kept (ruleset : SourceRuleset) : Prop := ∀ rule ∈ ruleset.rules, rule.Kept

instance (ruleset : SourceRuleset) : Decidable ruleset.Kept :=
  inferInstanceAs (Decidable (∀ rule ∈ ruleset.rules, rule.Kept))

theorem emitRuleset_eq (ruleset : SourceRuleset) (opts : FormatOptions) :
    emitRuleset ruleset opts = "ruleset ".toList ++ (emitStringLit ruleset.name ++
      (" \x7b\n".toList ++ (indentStr opts 1 ++ ("version = ".toList ++
        (emitStringLit ruleset.version ++ ("\n".toList ++ (ruleset.decls.flatMap (emitDecl opts 1) ++
          (ruleset.rules.flatMap (fun rule => "\n".toList ++ emitRuleDecl opts 1 rule) ++
            "\x7d\n".toList)))))))) := by
  unfold emitRuleset
  simp only [List.append_assoc]

/-- What the parser does with a printed ruleset. -/
structure RulesetReads (ruleset : SourceRuleset) (ts : List Token) : Prop where
  reads : ruleset.Kept → ∃ i, rulesetParser ⟨⟨ts, 0⟩, false, []⟩ = .ok ruleset ⟨i, false, []⟩
  refuses : ¬ ruleset.Kept → ∃ e s, rulesetParser ⟨⟨ts, 0⟩, false, []⟩ = .error e s

/-- The head of a ruleset and its declarations are read in front of its rules. -/
theorem decls_print {decls : List Decl} (h : ∀ decl ∈ decls, decl.Written) : ∃ ts,
    Spells false (decls.flatMap (emitDecl opts level)) ts ∧
      ∀ rest s, atDecl rest = false → Clean s (ts ++ rest) → ∃ s',
        membersUntil (fun ts => !atDecl ts) (member parseDecl) [] s = .ok decls s' ∧
          Clean s' rest := by
  let encode : Decl → List Token := fun decl => tokensOf (emitDecl opts level decl)
  have hone : ∀ decl ∈ decls, Spells false (emitDecl opts level decl) (encode decl) ∧
      (∃ k ts, (k = .requires ∨ k = .mutuallyExclusive) ∧ encode decl = .kw k :: ts) ∧
        ∀ rest, parseDecl (encode decl ++ rest) = .ok decl rest := by
    intro decl hdecl
    obtain ⟨k, ts, hk, hspells, hread⟩ :=
      parseDecl_prints opts level (h decl hdecl)
    have hencode : encode decl = .kw k :: ts := hspells.tokensOf_eq
    rw [hencode]
    exact ⟨hspells, ⟨k, ts, hk, rfl⟩, hread⟩
  refine ⟨decls.flatMap encode, spells_flatMap fun decl hdecl => (hone decl hdecl).1,
    fun rest s hrest hs => ?_⟩
  refine membersUntil_reads (fun decl hdecl => (hone decl hdecl).2.2) (fun decl hdecl more => ?_)
    (fun decl hdecl => ?_) (by rw [hrest]; rfl) hs
  · obtain ⟨-, ⟨k, ts, hk, hencode⟩, -⟩ := hone decl hdecl
    rw [hencode]
    obtain rfl | rfl := hk <;> rfl
  · obtain ⟨-, ⟨k, ts, -, hencode⟩, -⟩ := hone decl hdecl
    rw [hencode]
    exact List.cons_ne_nil _ _

theorem rules_reprint {rules : List RuleDecl} (h : ∀ rule ∈ rules, rule.Written) : ∃ ts,
    Spells false (rules.flatMap fun rule => "\n".toList ++ emitRuleDecl opts level rule) ts ∧
      (∀ rest, atDecl rest = false → atDecl (ts ++ rest) = false) ∧
      ((∀ rule ∈ rules, rule.Kept) → ∀ rest s, atRule rest = false → Clean s (ts ++ rest) →
        ∃ s', membersUntil (fun ts => !atRule ts) (member parseRule) [] s = .ok rules s' ∧
          Clean s' rest) ∧
      ((¬ ∀ rule ∈ rules, rule.Kept) → ∀ rest s, Clean s (ts ++ rest) →
        ∃ e s', membersUntil (fun ts => !atRule ts) (member parseRule) [] s = .error e s') := by
  let encode : RuleDecl → List Token := fun rule => tokensOf (emitRuleDecl opts level rule)
  have hline : Spells false "\n".toList [] := .piece rfl rfl rfl
  have hone : ∀ rule ∈ rules,
      Spells false ("\n".toList ++ emitRuleDecl opts level rule) (encode rule) ∧
      (∃ k ts, (k = .evidence ∨ k = .decision) ∧ encode rule = .kw k :: ts) ∧
        Reprints rule.Kept parseRule (encode rule) rule := by
    intro rule hrule
    obtain ⟨k, ts, hk, hspells, hreprints⟩ :=
      parseRule_reprints opts level (h rule hrule)
    have hencode : encode rule = .kw k :: ts := hspells.tokensOf_eq
    rw [hencode]
    exact ⟨hline.append hspells, ⟨k, ts, hk, rfl⟩, hreprints⟩
  have hgo : ∀ rule ∈ rules, ∀ rest, (!atRule (encode rule ++ rest)) = false := by
    intro rule hrule rest
    obtain ⟨-, ⟨k, ts, hk, hencode⟩, -⟩ := hone rule hrule
    rw [hencode]
    obtain rfl | rfl := hk <;> rfl
  have hlong : ∀ rule ∈ rules, encode rule ≠ [] := by
    intro rule hrule
    obtain ⟨-, ⟨k, ts, -, hencode⟩, -⟩ := hone rule hrule
    rw [hencode]
    exact List.cons_ne_nil _ _
  refine ⟨rules.flatMap encode, spells_flatMap fun rule hrule => (hone rule hrule).1, ?_, ?_, ?_⟩
  · intro rest hrest
    cases rules with
    | nil => exact hrest
    | cons rule more =>
        obtain ⟨-, ⟨k, ts, hk, hencode⟩, -⟩ := hone rule (List.mem_cons_self ..)
        rw [List.flatMap_cons, hencode]
        obtain rfl | rfl := hk <;> rfl
  · intro hkept rest s hrest hs
    exact membersUntil_reads (fun rule hrule => (hone rule hrule).2.2.reads (hkept rule hrule))
      hgo hlong (by rw [hrest]; rfl) hs
  · intro hloose rest s hs
    obtain ⟨done, rule, more, rfl, hdone, hrule⟩ := first_failing hloose
    have hmem : rule ∈ done ++ rule :: more := List.mem_append_right _ (List.mem_cons_self ..)
    obtain ⟨e, us, herror⟩ := (hone rule hmem).2.2.refuses hrule (more.flatMap encode ++ rest)
    rw [List.flatMap_append, List.flatMap_cons, List.append_assoc, List.append_assoc] at hs
    refine membersUntil_refuses (fun r hr => ?_) (fun r hr => ?_) (fun r hr => ?_)
      (hgo rule hmem _) herror hs
    · exact (hone r (List.mem_append_left _ hr)).2.2.reads (hdone r hr)
    · exact hgo r (List.mem_append_left _ hr)
    · exact hlong r (List.mem_append_left _ hr)

theorem emitRuleset_reads {ruleset : SourceRuleset} (h : ruleset.Written)
    (opts : FormatOptions) :
    ∃ ts, Spells false (emitRuleset ruleset opts) ts ∧ RulesetReads ruleset ts := by
  obtain ⟨dts, hdspells, hdread⟩ := decls_print opts 1 h.decls
  obtain ⟨rts, hrspells, hrdecl, hrread, hrrefuse⟩ :=
    rules_reprint opts 1 h.rules
  have hkw : Spells false "ruleset ".toList [.kw .ruleset] := .piece rfl rfl rfl
  have hopen : Spells false " \x7b\n".toList [.lBrace] :=
    (Spells.blanks 1).append (.piece rfl rfl rfl)
  have hversion : Spells false "version = ".toList [.kw .version, .eq] := .piece rfl rfl rfl
  have hline : Spells false "\n".toList [] := .piece rfl rfl rfl
  have hclose : Spells false "\x7d\n".toList [.rBrace] := .piece rfl rfl rfl
  have hspells := hkw.append ((Spells.string ruleset.name).append (hopen.append
    ((spells_indent opts 1).append (hversion.append ((Spells.string ruleset.version).append
      (hline.append (hdspells.append (hrspells.append hclose))))))))
  let tail := dts ++ (rts ++ [Token.rBrace])
  have hhead : parseHead (.kw .ruleset :: .string ruleset.name :: .lBrace :: .kw .version :: .eq ::
      .string ruleset.version :: tail) = .ok (ruleset.name, ruleset.version) tail := by
    unfold parseHead
    rw [bind_ok (consumeKw_ok _ _), bind_ok (stringLit_ok _ _), bind_ok (punct_ok _ _),
      bind_ok (consumeKw_ok _ _), bind_ok (punct_ok _ _), bind_ok (stringLit_ok _ _)]
    rfl
  obtain ⟨s₁, hs₁, hclean₁⟩ := item_reads (s := ⟨⟨_, 0⟩, false, []⟩) ⟨rfl, rfl, rfl⟩ hhead
  obtain ⟨s₂, hs₂, hclean₂⟩ := hdread _ s₁ (hrdecl _ rfl) hclean₁
  rw [emitRuleset_eq]
  refine ⟨_, hspells, fun hk => ?_, fun hk => ?_⟩
  · obtain ⟨s₃, hs₃, hclean₃⟩ := hrread hk _ s₂ rfl hclean₂
    have hend : parseEnd [.rBrace] = .ok () [] := rfl
    obtain ⟨s₄, hs₄, hclean₄⟩ := item_reads hclean₃ hend
    refine ⟨s₄.input, ?_⟩
    unfold rulesetParser
    refine (bind_ok hs₁).trans ?_
    dsimp only
    rw [bind_ok hs₂, bind_ok hs₃, bind_ok hs₄]
    obtain ⟨i, recover, diags⟩ := s₄
    obtain rfl : recover = false := hclean₄.recover
    obtain rfl : diags = [] := hclean₄.diags
    rfl
  · obtain ⟨e, s, herror⟩ := hrrefuse hk _ s₂ hclean₂
    refine ⟨e, s, ?_⟩
    unfold rulesetParser
    refine (bind_ok hs₁).trans ?_
    dsimp only
    rw [bind_ok hs₂, bind_error herror]

end Adgl
