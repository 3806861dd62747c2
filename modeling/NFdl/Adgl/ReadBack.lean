import NFdl.Adgl.ExprReadBack

/-!
# Printed parts of ADGL rules read back

The text of each part of a rule spells tokens from which the parser of that part makes the
part again, in front of any tokens that do not continue it.
-/

namespace Adgl

open Ast Lexer Fmt RulesetParser
open ExprParser (endsExpr consumePunct_self parseIdentAny_word)
open Scanner (bind_ok map_ok)

variable {α β : Type} {F : Token → Bool} {o : Bool} {p : TokenM α} {a : α} {as : List α}
variable {cs cs' : List Char} {ts rest : List Token} {t : Token} {s : String}

/-- A text spells tokens that a parser reads as a value, in front of some tokens. -/
def Prints (o : Bool) (F : Token → Bool) (p : TokenM α) (cs : List Char) (a : α) : Prop :=
  ∃ ts, Spells o cs ts ∧ ∀ rest, F (current rest) = true → p (ts ++ rest) = .ok a rest

/-- A text that is read in front of all tokens. -/
abbrev PrintsAll (o : Bool) (p : TokenM α) (cs : List Char) (a : α) : Prop :=
  Prints o (fun _ => true) p cs a

theorem Prints.weaken (h : Prints false F p cs a) : Prints true F p cs a := by
  obtain ⟨ts, hspells, hread⟩ := h
  exact ⟨ts, .weaken hspells, hread⟩

/-- The tokens are those of the text. -/
theorem Prints.tokens (h : Prints o F p cs a) : Spells o cs (tokensOf cs) ∧
    ∀ rest, F (current rest) = true → p (tokensOf cs ++ rest) = .ok a rest := by
  obtain ⟨ts, hspells, hread⟩ := h
  rw [hspells.tokensOf_eq]
  exact ⟨hspells, hread⟩

theorem Prints.map {f : α → β} (h : Prints o F p cs a) : Prints o F (f <$> p) cs (f a) := by
  obtain ⟨ts, hspells, hread⟩ := h
  exact ⟨ts, hspells, fun rest hrest => map_ok (hread rest hrest)⟩

/-! ### Single tokens -/

theorem run_ok {p : TokenParser α} (h : p ts = (.ok a, rest)) : run p ts = .ok a rest := by
  unfold run
  rw [h]

theorem punct_ok (t : Token) (rest : List Token) : punct t (t :: rest) = .ok () rest :=
  run_ok (consumePunct_self t rest)

theorem consumeKw_ok (k : Keyword) (rest : List Token) :
    consumeKw k (.kw k :: rest) = .ok () rest :=
  run_ok (Parser.one_some (if_pos rfl))

theorem consumeWordExact_ok (s : String) (rest : List Token) :
    consumeWordExact s (.ident s :: rest) = .ok () rest :=
  run_ok (Parser.one_some (if_pos rfl))

theorem wordAny_ok (h : wordText t = some s) (rest : List Token) :
    wordAny (t :: rest) = .ok s rest :=
  run_ok (Parser.one_some h)

theorem identAny_ok (h : IsName s) (rest : List Token) :
    identAny (word s :: rest) = .ok s rest :=
  run_ok (parseIdentAny_word h rest)

theorem identNonKw_ok (h : IsPlainWord s) (rest : List Token) :
    identNonKw (word s :: rest) = .ok s rest := by
  rw [h.2]
  exact run_ok (Parser.one_some rfl)

theorem stringLit_ok (s : String) (rest : List Token) :
    stringLit (.string s :: rest) = .ok s rest :=
  run_ok (Parser.one_some rfl)

theorem integer_ok (v : Int64) (rest : List Token) : integer (.int v :: rest) = .ok v rest :=
  run_ok (Parser.one_some rfl)

theorem wordAny_prints (h : IsWord s) : PrintsAll true wordAny s.toList s :=
  ⟨[word s], .word h, fun rest _ => wordAny_ok (wordText_word s) rest⟩

theorem identAny_prints (h : IsName s) : PrintsAll true identAny s.toList s :=
  ⟨[word s], .word h.isWord, fun rest _ => identAny_ok h rest⟩

theorem stringLit_prints (s : String) : PrintsAll true stringLit (emitStringLit s) s :=
  ⟨[.string s], .weaken (.string s), fun rest _ => stringLit_ok s rest⟩

theorem expr_prints {e : Expr} (h : e.Written) : Prints true endsExpr expr (emitExpr e 0) e :=
  ⟨_, spells_expr 0 h, fun _ hend => run_ok (ExprParser.parseExpr_exprTokens h hend)⟩

/-- What a parser of one token fails on. -/
theorem one_fails {pick : Token → Option α} {e : List Token → ParseError}
    (h : pick (current ts) = none) (s : List Token) :
    run (Parser.one pick e) ts ≠ .ok a s := by
  cases ts with
  | nil => nofun
  | cons t ts =>
      intro hread
      unfold run at hread
      rw [Parser.one_none (show pick t = none from h)] at hread
      cases hread

/-- A token that is there when a parser that begins with it succeeds. -/
theorem punct_starts {f : Unit → TokenM α} (h : (punct t >>= f) ts = .ok a rest) :
    current ts = t := by
  by_contra ht
  cases hr : punct t ts with
  | ok u s => exact one_fails (if_neg ht) s hr
  | error e s =>
      rw [Scanner.bind_error hr] at h
      cases h

theorem consumeKw_starts {k : Keyword} {f : Unit → TokenM α}
    (h : (consumeKw k >>= f) ts = .ok a rest) : current ts = .kw k := by
  by_contra ht
  cases hr : consumeKw k ts with
  | ok u s => exact one_fails (if_neg ht) s hr
  | error e s =>
      rw [Scanner.bind_error hr] at h
      cases h

/-! ### Lists -/

/-- The tokens of a text between others, in front of the tokens that follow. -/
theorem parenthesized_ok (h : ∀ rest, F (current rest) = true → p (ts ++ rest) = .ok a rest)
    (hclose : F .rParen = true) (rest : List Token) :
    parenthesized p (.lParen :: (ts ++ .rParen :: rest)) = .ok a rest := by
  unfold parenthesized
  rw [bind_ok (punct_ok _ _), bind_ok (h (.rParen :: rest) hclose),
    bind_ok (punct_ok _ _)]
  rfl

theorem identParens_ok (h : IsPlainWord s) (rest : List Token) :
    parenthesized identNonKw (.lParen :: word s :: .rParen :: rest) = .ok s rest := by
  unfold parenthesized
  rw [bind_ok (punct_ok _ _), bind_ok (identNonKw_ok h _), bind_ok (punct_ok _ _)]
  rfl

theorem optional_some {first : Token} (h : p ts = .ok a rest) (hfirst : current ts = first) :
    optional_ first p ts = .ok (some a) rest := by
  unfold optional_
  refine (bind_ok (p := peek) rfl).trans ?_
  rw [if_pos hfirst]
  exact map_ok h

theorem optional_none {first : Token} (hfirst : current ts ≠ first) :
    optional_ first p ts = .ok none ts := by
  unfold optional_
  refine (bind_ok (p := peek) rfl).trans ?_
  rw [if_neg hfirst]
  rfl

/-- A parser that another one chooses by its first keyword. -/
theorem Prints.announced {f : α → β} {k : Keyword} {q : TokenM β} (h : Prints o F p cs a)
    (hstart : ∀ ts s, p ts = .ok a s → current ts = .kw k)
    (hq : ∀ ts, current ts = .kw k → q ts = (f <$> p) ts) : Prints o F q cs (f a) := by
  obtain ⟨ts, hspells, hread⟩ := h
  refine ⟨ts, hspells, fun rest hrest => ?_⟩
  have hvalue := hread rest hrest
  rw [hq _ (hstart _ _ hvalue)]
  exact map_ok hvalue

theorem foldl_push (as bs : List α) : as.foldl (fun as a => as ++ [a]) bs = bs ++ as := by
  induction as generalizing bs with
  | nil => exact (List.append_nil bs).symm
  | cons a as ih =>
      rw [List.foldl_cons, ih, List.append_assoc]
      rfl

theorem pushed_ok (h : p ts = .ok a rest) (as : List α) :
    pushed p as ts = .ok (as ++ [a]) rest := by
  unfold pushed
  rw [bind_ok h]
  rfl

/-- A loop over texts behind separators, up to something else than a separator. -/
theorem separated_ok {sep : Token} {emit : α → List Char} (hsep : F sep = true)
    (h : ∀ b ∈ as, Prints true F p (emit b) b) (hrest : F (current rest) = true)
    (hstop : current rest ≠ sep) :
    tokensUntil (fun ts => current ts ≠ sep) (fun as => do
        advance
        pushed p as) [a] (as.flatMap (fun b => sep :: tokensOf (emit b)) ++ rest) =
      .ok (a :: as) rest := by
  have hitems : Scanner.Items (fun s ts => s = ts) (fun ts => F (current ts) = true)
      (fun ts => decide (current ts ≠ sep)) (fun as => do
        advance
        pushed p as) (fun b => sep :: tokensOf (emit b)) (fun as a => as ++ [a]) as := by
    refine ⟨?_, ?_, fun b _ _ _ => hsep⟩
    · rintro bs b hb more _ hmore rfl
      refine ⟨more, ?_, rfl⟩
      have hread := (h b hb).tokens.2 more hmore
      exact (bind_ok (p := advance) rfl).trans (pushed_ok hread bs)
    · rintro b hb more _ hmore rfl
      exact decide_eq_false fun hne => hne rfl
  obtain ⟨s, hloop, rfl⟩ := hitems.untilStop [a] List.length .overrun
    (fun _ _ hs => congrArg List.length hs) (fun _ _ => List.cons_ne_nil _ _) hrest
    (fun s hs => decide_eq_true (hs ▸ hstop)) rfl
  rw [foldl_push] at hloop
  exact hloop

theorem breaks_left (h : breaks cs = true) (more : List Char) : breaks (cs ++ more) = true := by
  cases cs with
  | nil => cases h
  | cons c cs => exact h

theorem spells_separated {sep : Token} {text : List Char} {emit : α → List Char}
    (hsep : Spells false text [sep]) (hbreaks : breaks text = true)
    (h : ∀ b ∈ as, Prints true F p (emit b) b) (hcs : Spells true cs ts) :
    Spells true (cs ++ as.flatMap fun b => text ++ emit b)
      (ts ++ as.flatMap fun b => sep :: tokensOf (emit b)) := by
  induction as generalizing cs ts with
  | nil => simpa using hcs
  | cons b bs ih =>
      have hb := (h b (List.mem_cons_self ..)).tokens.1
      have hfirst : Spells true (cs ++ (text ++ emit b)) (ts ++ ([sep] ++ tokensOf (emit b))) :=
        hcs.before (hsep.append hb) (breaks_left hbreaks _)
      have hall := ih (fun b hb => h b (List.mem_cons_of_mem _ hb)) hfirst
      simp only [List.flatMap_cons, List.append_assoc, List.cons_append, List.nil_append] at hall ⊢
      exact hall

theorem commas_cons (cs : List Char) (texts : List (List Char)) :
    commas (cs :: texts) = cs ++ texts.flatMap (", ".toList ++ ·) := by
  induction texts generalizing cs with
  | nil => exact (List.append_nil cs).symm
  | cons text texts ih =>
      rw [List.flatMap_cons, commas, ih]
      · simp only [List.append_assoc]
      · exact List.cons_ne_nil _ _

/-- One value, and another one after every comma. -/
theorem commaSep_prints {emit : α → List Char} (hcomma : F .comma = true)
    (h : ∀ a ∈ as, Prints true F p (emit a) a) (hne : as ≠ []) :
    Prints true (fun t => F t && decide (t ≠ .comma)) (commaSep p) (commas (as.map emit)) as := by
  cases as with
  | nil => exact absurd rfl hne
  | cons a as =>
      obtain ⟨hfirst, hread⟩ := (h a (List.mem_cons_self ..)).tokens
      have hmore : ∀ b ∈ as, Prints true F p (emit b) b :=
        fun b hb => h b (List.mem_cons_of_mem _ hb)
      refine ⟨tokensOf (emit a) ++ as.flatMap fun b => .comma :: tokensOf (emit b), ?_,
        fun rest hrest => ?_⟩
      · rw [List.map_cons, commas_cons, List.flatMap_map]
        exact spells_separated (.piece rfl rfl rfl) rfl hmore hfirst
      · rw [Bool.and_eq_true, decide_eq_true_eq] at hrest
        have hnext : F (current (as.flatMap (fun b => .comma :: tokensOf (emit b)) ++ rest)) =
            true := by
          cases as with
          | nil => exact hrest.1
          | cons b bs => exact hcomma
        rw [List.append_assoc]
        exact (bind_ok (hread _ hnext)).trans (separated_ok hcomma hmore hrest.1 hrest.2)

/-- Values up to a closing token. -/
theorem listUntil_prints (close : Token) {emit : α → List Char} (hcomma : F .comma = true)
    (hF : F close = true) (hclose : close ≠ .comma)
    (hfail : ∀ ts, current ts = close → ∀ a s, p ts ≠ .ok a s)
    (h : ∀ a ∈ as, Prints true F p (emit a) a) :
    Prints true (fun t => decide (t = close)) (listUntil close p) (commas (as.map emit)) as := by
  cases as with
  | nil =>
      refine ⟨[], .weaken .nil, fun rest hrest => ?_⟩
      unfold listUntil
      refine (bind_ok (p := peek) rfl).trans ?_
      rw [List.nil_append, if_pos (of_decide_eq_true hrest)]
      rfl
  | cons a as =>
      obtain ⟨hspells, hread⟩ := (commaSep_prints hcomma h (List.cons_ne_nil _ _)).tokens
      refine ⟨_, hspells, fun rest hrest => ?_⟩
      have hrest : current rest = close := of_decide_eq_true hrest
      have hall := hread rest (by rw [hrest, hF]; exact decide_eq_true hclose)
      have hopen : current (tokensOf (commas ((a :: as).map emit)) ++ rest) ≠ close := by
        intro hcurrent
        unfold commaSep at hall
        cases hr : p (tokensOf (commas ((a :: as).map emit)) ++ rest) with
        | ok a s => exact hfail _ hcurrent a s hr
        | error e s =>
            rw [Scanner.bind_error hr] at hall
            cases hall
      unfold listUntil
      refine (bind_ok (p := peek) rfl).trans ?_
      rw [if_neg hopen]
      exact hall

section Repeated

variable {stop : List Token → Bool} {encode : α → List Token}
variable (hread : ∀ a ∈ as, ∀ rest, p (encode a ++ rest) = .ok a rest)
variable (hgo : ∀ a ∈ as, ∀ rest, stop (encode a ++ rest) = false)

include hread hgo

theorem repeated_items : Scanner.Items (fun s ts => s = ts) (fun _ => True) stop (pushed p)
    encode (fun as a => as ++ [a]) as := by
  refine ⟨?_, ?_, fun _ _ _ _ => trivial⟩
  · rintro bs b hb more _ - rfl
    exact ⟨more, pushed_ok (hread b hb more) bs, rfl⟩
  · rintro b hb more _ - rfl
    exact hgo b hb more

/-- Values one after the other, up to a stop. -/
theorem repeated_ok (hstop : stop rest = true) :
    repeated stop p (as.flatMap encode ++ rest) = .ok as rest := by
  have hlong : ∀ a ∈ as, encode a ≠ [] := by
    intro a ha hnil
    have hfalse := hgo a ha rest
    rw [hnil, List.nil_append, hstop] at hfalse
    cases hfalse
  obtain ⟨s, hloop, rfl⟩ := (repeated_items hread hgo).untilStop [] List.length .overrun
    (fun _ _ hs => congrArg List.length hs) hlong trivial
    (fun s hs => hs ▸ hstop) rfl
  rw [foldl_push] at hloop
  exact hloop

/-- Values one after the other, up to one that is refused. -/
theorem repeated_error {e : ParseError} {ts : List Token} (hgoes : stop rest = false)
    (herror : p rest = .error e ts) :
    ∃ e s, repeated stop p (as.flatMap encode ++ rest) = .error e s := by
  have hlong : ∀ a ∈ as, encode a ≠ [] := by
    intro a ha hnil
    have hvalue := hread a ha rest
    rw [hnil, List.nil_append, herror] at hvalue
    cases hvalue
  refine (repeated_items hread hgo).untilStop_error [] List.length .overrun
    (fun _ _ hs => congrArg List.length hs) hlong trivial (fun as s hs => ?_) rfl
  subst hs
  have hpushed : pushed p as s = .error e ts := Scanner.bind_error herror
  exact ⟨hgoes, e, ts, hpushed⟩

end Repeated

/-- What values up to a stop begin with. -/
theorem repeated_starts {stop : List Token → Bool} (h : repeated stop p ts = .ok as rest) :
    stop ts = true ∨ ∃ a s, p ts = .ok a s := by
  unfold repeated tokensUntil Scanner.untilStop Scanner.untilWithin at h
  split at h
  · rename_i hstop
    exact .inl hstop
  · cases hr : p ts with
    | ok a s => exact .inr ⟨a, s, rfl⟩
    | error e s =>
        have hpushed : pushed p [] ts = .error e s := Scanner.bind_error hr
        rw [Scanner.bind_error hpushed] at h
        cases h

theorem spells_flatMap {emit : α → List Char} {encode : α → List Token}
    (h : ∀ a ∈ as, Spells false (emit a) (encode a)) :
    Spells false (as.flatMap emit) (as.flatMap encode) := by
  induction as with
  | nil => exact .nil
  | cons a as ih =>
      have hmore := ih fun b hb => h b (List.mem_cons_of_mem _ hb)
      exact (h a (List.mem_cons_self ..)).append hmore

theorem repeated_prints {stop : List Token → Bool} (emit : α → List Char)
    (hfail : ∀ ts, stop ts = true → ∀ a s, p ts ≠ .ok a s)
    (h : ∀ a ∈ as, PrintsAll false p (emit a) a) : ∃ ts, Spells false (as.flatMap emit) ts ∧
      ∀ rest, stop rest = true → repeated stop p (ts ++ rest) = .ok as rest := by
  have hread : ∀ a ∈ as, ∀ rest, p (tokensOf (emit a) ++ rest) = .ok a rest :=
    fun a ha rest => (h a ha).tokens.2 rest rfl
  refine ⟨_, spells_flatMap fun a ha => (h a ha).tokens.1, fun rest hrest => ?_⟩
  refine repeated_ok hread (fun a ha more => ?_) hrest
  exact eq_false_of_ne_true fun hstop => hfail _ hstop a more (hread a ha more)

/-! ### Names of a kind -/

def KindIdentWritten (kind : KindIdent) : Prop := kind ≠ [] ∧ ∀ s ∈ kind, IsWord s

theorem emitKindIdent_cons (s : String) (kind : KindIdent) :
    emitKindIdent (s :: kind) = s.toList ++ kind.flatMap (".".toList ++ ·.toList) := by
  induction kind generalizing s with
  | nil => exact (List.append_nil s.toList).symm
  | cons seg kind ih =>
      rw [List.flatMap_cons, emitKindIdent, ih]
      · simp only [List.append_assoc]
      · exact List.cons_ne_nil _ _

theorem parseKindIdent_prints {kind : KindIdent} (h : KindIdentWritten kind) :
    Prints true (fun t => decide (t ≠ .dot)) parseKindIdent (emitKindIdent kind) kind := by
  cases kind with
  | nil => exact absurd rfl h.1
  | cons s kind =>
      have hs := h.2 s (List.mem_cons_self ..)
      have hmore : ∀ b ∈ kind, PrintsAll true wordAny b.toList b :=
        fun b hb => wordAny_prints (h.2 b (List.mem_cons_of_mem _ hb))
      refine ⟨[word s] ++ kind.flatMap fun b => .dot :: tokensOf b.toList, ?_,
        fun rest hrest => ?_⟩
      · rw [emitKindIdent_cons]
        exact spells_separated (.piece rfl rfl rfl) rfl hmore (.word hs)
      · rw [List.append_assoc]
        exact (bind_ok (wordAny_ok (wordText_word s) _)).trans
          (separated_ok rfl hmore rfl (of_decide_eq_true hrest))

theorem parseRefList_prints {refs : List String} (h : ∀ s ∈ refs, IsName s) :
    PrintsAll false parseRefList (emitRefList refs) refs := by
  have hfail : ∀ ts, current ts = .rBracket → ∀ a s, identAny ts ≠ .ok a s := by
    intro ts hts a s hread
    cases ts with
    | nil => cases hread
    | cons t ts =>
        obtain rfl : t = .rBracket := hts
        cases hread
  obtain ⟨ts, hspells, hread⟩ := listUntil_prints (F := fun _ => true) _ rfl rfl (by decide) hfail
    fun s hs => identAny_prints (h s hs)
  have hopen : Spells false "[".toList [.lBracket] := .piece rfl rfl rfl
  have hclose : Spells false "]".toList [.rBracket] := .piece rfl rfl rfl
  refine ⟨_, (hopen.append hspells).before hclose rfl, fun rest _ => ?_⟩
  simp only [List.append_assoc, List.cons_append, List.nil_append]
  unfold parseRefList
  rw [bind_ok (punct_ok .lBracket _), bind_ok (hread (.rBracket :: rest) rfl),
    bind_ok (punct_ok .rBracket rest)]
  rfl

/-! ### Fields -/

def Ast.InferField.Written : InferField → Prop
  | .target e => e.Written
  | .weight v => -2 ^ 63 < v.toInt
  | .evidence refs => ∀ s ∈ refs, IsName s

def Ast.EmitField.Written : EmitField → Prop
  | .target e => e.Written
  | .severity _ | .sarifId _ => True
  | .evidence refs => ∀ s ∈ refs, IsName s

def Ast.ActionField.Written : ActionField → Prop
  | .target e => e.Written
  | .reason _ => True
  | .evidence refs => ∀ s ∈ refs, IsName s

/-- A field behind its name. -/
def keyed (field : String → TokenM α) : TokenM α := do
  let key ← wordAny
  punct .colon
  field key

variable {field : String → TokenM α}

/-- A text that is read in front of all tokens is read in front of some. -/
theorem Prints.all (h : PrintsAll o p cs a) : Prints o F p cs a := by
  obtain ⟨ts, hspells, hread⟩ := h
  exact ⟨ts, hspells, fun rest _ => hread rest rfl⟩

theorem keyed_prints {key : String} (hlit : Spells false cs [t, .colon])
    (hkey : wordText t = some key) (h : Prints o F (field key) cs' a) :
    Prints o F (keyed field) (cs ++ cs') a := by
  obtain ⟨ts, hspells, hread⟩ := h
  refine ⟨_, hlit.append hspells, fun rest hrest => ?_⟩
  unfold keyed
  simp only [List.cons_append, List.nil_append]
  rw [bind_ok (wordAny_ok hkey _), bind_ok (punct_ok _ _)]
  exact hread rest hrest

theorem keyed_fails (ts : List Token) (h : current ts = .rBrace) (a : α) (s : List Token) :
    keyed field ts ≠ .ok a s := by
  intro hread
  cases ts with
  | nil => cases h
  | cons t ts =>
      obtain rfl : t = .rBrace := h
      cases hread

/-- The fields of a statement on a line. -/
def fieldsText (texts : List (List Char)) : List Char :=
  " \x7b ".toList ++ (commas texts ++ " \x7d\n".toList)

theorem parseFields_prints {emit : α → List Char} {fields : List α}
    (h : ∀ f ∈ fields, Prints true endsExpr (keyed field) (emit f) f) :
    PrintsAll false (parseFields field) (fieldsText (fields.map emit)) fields := by
  obtain ⟨ts, hspells, hread⟩ := listUntil_prints .rBrace rfl rfl (by decide)
    keyed_fails h
  have hopen : Spells false " \x7b ".toList [.lBrace] :=
    (Spells.blanks 1).append (.piece rfl rfl rfl)
  have hclose : Spells false " \x7d\n".toList [.rBrace] := .piece rfl rfl rfl
  refine ⟨_, hopen.append (hspells.before hclose rfl), fun rest _ => ?_⟩
  simp only [List.append_assoc, List.cons_append, List.nil_append]
  unfold parseFields
  rw [bind_ok (punct_ok .lBrace _)]
  refine (bind_ok (hread (.rBrace :: rest) rfl)).trans ?_
  rw [bind_ok (punct_ok .rBrace rest)]
  rfl

/-- The sign and the digits of a weight. -/
theorem weight_prints {v : Int64} (h : -2 ^ 63 < v.toInt) :
    ∃ ts, Spells true ((if 0 ≤ v then "+".toList else []) ++ emitInt v) ts ∧
      ∀ rest, parseInferField "weight" (ts ++ rest) = .ok (.weight v) rest := by
  have hread : ∀ {sign u : Int64} {t : Token} (rest : List Token),
      parseSign (t :: .int u :: rest) = .ok sign (.int u :: rest) → saturatingMul sign u = v →
      parseInferField "weight" (t :: .int u :: rest) = .ok (.weight v) rest := by
    rintro sign u t rest hsign rfl
    change (parseSign >>= fun sign => integer >>= fun v =>
      pure (InferField.weight (saturatingMul sign v))) _ = _
    rw [bind_ok hsign, bind_ok (integer_ok u rest)]
    rfl
  have hone : (1 : Int64).toInt = 1 := by decide
  by_cases hv : 0 ≤ v
  · have hnonneg : 0 ≤ v.toInt := Int64.le_iff_toInt_le.mp hv
    have hsign : Spells false "+".toList [.plus] := .sign (.inl ⟨rfl, rfl⟩)
    rw [if_pos hv]
    refine ⟨_, hsign.append (spells_int hnonneg), fun rest => hread rest rfl ?_⟩
    rw [saturatingMul, hone, one_mul, Int64.ofIntClamp_toInt]
  · have hneg : v.toInt < 0 := Int.not_le.mp fun hle => hv (Int64.le_iff_toInt_le.mpr hle)
    have hminus : (-v).toInt = -v.toInt := by
      rw [Int64.toInt_neg]
      exact Int.bmod_eq_of_le (by omega) (by omega)
    have htext : emitInt v = "-".toList ++ emitInt (-v) := by
      obtain ⟨n, hn⟩ := Int.eq_negSucc_of_lt_zero hneg
      unfold emitInt
      rw [hminus, hn]
      rfl
    have hsign : Spells false "-".toList [.minus] := .sign (.inr ⟨rfl, rfl⟩)
    rw [if_neg hv, htext, List.nil_append]
    refine ⟨_, hsign.append (spells_int (by omega)), fun rest => hread rest rfl ?_⟩
    have hminusOne : (-1 : Int64).toInt = -1 := by decide
    rw [saturatingMul, hminusOne, hminus, neg_one_mul, neg_neg, Int64.ofIntClamp_toInt]

theorem parseInferField_prints {f : InferField} (h : f.Written) :
    Prints true endsExpr (keyed parseInferField) (emitInferField f) f := by
  cases f with
  | target e =>
      have hlit : Spells false "target: ".toList [.ident "target", .colon] := .piece rfl rfl rfl
      have hvalue : Prints true endsExpr (parseInferField "target") (emitExpr e 0) (.target e) :=
        (expr_prints h).map
      exact keyed_prints hlit rfl hvalue
  | weight v =>
      have hlit : Spells false "weight: ".toList [.ident "weight", .colon] := .piece rfl rfl rfl
      obtain ⟨ts, hspells, hread⟩ := weight_prints h
      have hvalue : Prints true endsExpr (parseInferField "weight")
          ((if 0 ≤ v then "+".toList else []) ++ emitInt v) (.weight v) :=
        ⟨ts, hspells, fun rest _ => hread rest⟩
      have htext : emitInferField (.weight v) = "weight: ".toList ++
          ((if 0 ≤ v then "+".toList else []) ++ emitInt v) := List.append_assoc _ _ _
      rw [htext]
      exact keyed_prints hlit rfl hvalue
  | evidence refs =>
      have hlit : Spells false "evidence: ".toList [.kw .evidence, .colon] := .piece rfl rfl rfl
      have hvalue : PrintsAll false (parseInferField "evidence") (emitRefList refs)
          (.evidence refs) := (parseRefList_prints h).map
      exact keyed_prints hlit rfl hvalue.weaken.all

theorem isPlainWord_severity (sev : Severity) : IsPlainWord (severityStr sev) := by
  cases sev <;>
    exact ⟨⟨⟨_, _, rfl, rfl⟩, List.all_eq_true.mp rfl, by decide, by decide⟩, rfl⟩

theorem parseSeverity_prints (sev : Severity) :
    PrintsAll true parseSeverity (severityStr sev).toList sev := by
  have hword := isPlainWord_severity sev
  refine ⟨[word (severityStr sev)], .word hword.1, fun rest _ => ?_⟩
  have hname : severity? (severityStr sev) = some sev := by cases sev <;> rfl
  unfold parseSeverity known
  refine (bind_ok (identAny_ok (.inl hword) rest)).trans ?_
  rw [hname]
  rfl

theorem parseEmitField_prints {f : EmitField} (h : f.Written) :
    Prints true endsExpr (keyed parseEmitField) (emitEmitField f) f := by
  cases f with
  | target e =>
      have hlit : Spells false "target: ".toList [.ident "target", .colon] := .piece rfl rfl rfl
      have hvalue : Prints true endsExpr (parseEmitField "target") (emitExpr e 0) (.target e) :=
        (expr_prints h).map
      exact keyed_prints hlit rfl hvalue
  | severity sev =>
      have hlit : Spells false "severity: ".toList [.ident "severity", .colon] := .piece rfl rfl rfl
      have hvalue : PrintsAll true (parseEmitField "severity") (severityStr sev).toList
          (.severity sev) := (parseSeverity_prints sev).map
      exact keyed_prints hlit rfl hvalue.all
  | evidence refs =>
      have hlit : Spells false "evidence: ".toList [.kw .evidence, .colon] := .piece rfl rfl rfl
      have hvalue : PrintsAll false (parseEmitField "evidence") (emitRefList refs)
          (.evidence refs) := (parseRefList_prints h).map
      exact keyed_prints hlit rfl hvalue.weaken.all
  | sarifId id =>
      have hlit : Spells false "sarif_id: ".toList [.ident "sarif_id", .colon] := .piece rfl rfl rfl
      have hvalue : PrintsAll true (parseEmitField "sarif_id") (emitStringLit id) (.sarifId id) :=
        (stringLit_prints id).map
      exact keyed_prints hlit rfl hvalue.all

theorem parseActionField_prints {f : ActionField} (h : f.Written) :
    Prints true endsExpr (keyed parseActionField) (emitActionField f) f := by
  cases f with
  | target e =>
      have hlit : Spells false "target: ".toList [.ident "target", .colon] := .piece rfl rfl rfl
      have hvalue : Prints true endsExpr (parseActionField "target") (emitExpr e 0) (.target e) :=
        (expr_prints h).map
      exact keyed_prints hlit rfl hvalue
  | reason text =>
      have hlit : Spells false "reason: ".toList [.ident "reason", .colon] := .piece rfl rfl rfl
      have hvalue : PrintsAll true (parseActionField "reason") (emitStringLit text)
          (.reason text) := (stringLit_prints text).map
      exact keyed_prints hlit rfl hvalue.all
  | evidence refs =>
      have hlit : Spells false "evidence: ".toList [.kw .evidence, .colon] := .piece rfl rfl rfl
      have hvalue : PrintsAll false (parseActionField "evidence") (emitRefList refs)
          (.evidence refs) := (parseRefList_prints h).map
      exact keyed_prints hlit rfl hvalue.weaken.all

/-! ### Statements -/

section Statements

variable (opts : FormatOptions) (level : ℕ)

theorem spells_indent (opts : FormatOptions) (level : ℕ) :
    Spells false (indentStr opts level) [] := .blanks _

theorem emitStmtLine_eq (head : List Char) (fields : List (List Char)) :
    emitStmtLine opts level head fields = indentStr opts level ++ (head ++ fieldsText fields) := by
  simp only [emitStmtLine, fieldsText, List.append_assoc]

/-- A statement line, of which the parser of the statement reads the head and the fields. -/
theorem stmtLine_prints {emit : α → List Char} {fields : List α} {head : List Token}
    {p : TokenM β} (make : List α → β) (hhead : Spells o cs head)
    (hp : ∀ rest, current rest = .lBrace →
      p (head ++ rest) = (parseFields field >>= fun fields => pure (make fields)) rest)
    (h : ∀ f ∈ fields, Prints true endsExpr (keyed field) (emit f) f) :
    PrintsAll false p (emitStmtLine opts level cs (fields.map emit)) (make fields) := by
  obtain ⟨ts, hspells, hread⟩ := parseFields_prints h
  rw [emitStmtLine_eq _ _]
  refine ⟨[] ++ (head ++ ts), (spells_indent opts level).append
    (hhead.before hspells rfl), fun rest hrest => ?_⟩
  have hfields := hread rest hrest
  rw [List.nil_append, List.append_assoc, hp _ (punct_starts hfields), bind_ok hfields]
  rfl

def Ast.InferStmt.Written (stmt : InferStmt) : Prop :=
  IsPlainWord stmt.cause ∧ ∀ f ∈ stmt.fields, f.Written

def Ast.EmitStmt.Written (stmt : EmitStmt) : Prop :=
  IsPlainWord stmt.problem ∧ ∀ f ∈ stmt.fields, f.Written

/-- The action is the one of its name. -/
def Ast.ActionStmt.Written (stmt : ActionStmt) : Prop :=
  IsName (actionName stmt) ∧ actionOfName (actionName stmt) = stmt.action ∧
    (∀ kind ∈ stmt.arg, KindIdentWritten kind) ∧ ∀ f ∈ stmt.fields, f.Written

def Ast.Stmt.Written : Stmt → Prop
  | .infer stmt => stmt.Written
  | .emit stmt => stmt.Written
  | .action stmt => stmt.Written

theorem parseInferStmt_prints {stmt : InferStmt} (h : stmt.Written) :
    PrintsAll false parseInferStmt (emitInfer opts level stmt) stmt := by
  have hopen : Spells false "infer Cause(".toList [.kw .infer, .kw .cause, .lParen] :=
    .piece rfl rfl rfl
  have hclose : Spells false ")".toList [.rParen] := .piece rfl rfl rfl
  refine stmtLine_prints _ _ (InferStmt.mk stmt.cause)
    ((hopen.append (.word h.1.1)).before hclose rfl) (fun rest _ => ?_)
    fun f hf => parseInferField_prints (h.2 f hf)
  simp only [List.cons_append, List.nil_append]
  unfold parseInferStmt
  rw [bind_ok (consumeKw_ok _ _), bind_ok (consumeKw_ok _ _),
    bind_ok (identParens_ok h.1 rest)]

theorem parseEmitStmt_prints {stmt : EmitStmt} (h : stmt.Written) :
    PrintsAll false parseEmitStmt (emitEmit opts level stmt) stmt := by
  have hopen : Spells false "emit Problem(".toList [.kw .emit, .kw .problem, .lParen] :=
    .piece rfl rfl rfl
  have hclose : Spells false ")".toList [.rParen] := .piece rfl rfl rfl
  refine stmtLine_prints _ _ (EmitStmt.mk stmt.problem)
    ((hopen.append (.word h.1.1)).before hclose rfl) (fun rest _ => ?_)
    fun f hf => parseEmitField_prints (h.2 f hf)
  simp only [List.cons_append, List.nil_append]
  unfold parseEmitStmt
  rw [bind_ok (consumeKw_ok _ _), bind_ok (consumeKw_ok _ _),
    bind_ok (identParens_ok h.1 rest)]

/-- The argument of an action, in front of its fields. -/
theorem actionArg_prints {arg : Option KindIdent} (h : ∀ kind ∈ arg, KindIdentWritten kind) :
    ∃ ts, (∀ {name : String}, IsWord name →
        Spells true (name.toList ++ emitActionArg arg) (word name :: ts)) ∧
      ∀ rest, current rest = .lBrace →
        optional_ .lParen (parenthesized parseKindIdent) (ts ++ rest) = .ok arg rest := by
  cases arg with
  | none =>
      refine ⟨[], fun hname => ?_, fun rest hrest => ?_⟩
      · rw [show emitActionArg none = [] from rfl, List.append_nil]
        exact .word hname
      · refine optional_none ?_
        rw [List.nil_append, hrest]
        decide
  | some kind =>
      obtain ⟨ts, hspells, hread⟩ := parseKindIdent_prints (h kind rfl)
      have hopen : Spells false "(".toList [.lParen] := .piece rfl rfl rfl
      have hclose : Spells false ")".toList [.rParen] := .piece rfl rfl rfl
      refine ⟨.lParen :: (ts ++ [.rParen]), fun hname => ?_, fun rest _ => ?_⟩
      · have harg := (hopen.append hspells).before hclose rfl
        exact .weaken ((Spells.word hname).before harg rfl)
      · rw [List.cons_append, List.append_assoc]
        exact optional_some
          (parenthesized_ok (F := fun t => decide (t ≠ .dot)) hread rfl rest) rfl

theorem parseActionStmt_prints {stmt : ActionStmt} (h : stmt.Written) :
    PrintsAll false parseActionStmt (emitAction opts level stmt) stmt := by
  obtain ⟨hname, haction, harg, hfields⟩ := h
  obtain ⟨ts, hspells, hread⟩ := actionArg_prints harg
  have hopen : Spells false "action ".toList [.kw .action] := .piece rfl rfl rfl
  have hhead := hopen.append (hspells hname.isWord)
  rw [← List.append_assoc] at hhead
  refine stmtLine_prints _ _ (ActionStmt.mk stmt.action stmt.arg) hhead (fun rest hrest => ?_)
    fun f hf => parseActionField_prints (hfields f hf)
  simp only [List.cons_append, List.nil_append]
  unfold parseActionStmt
  rw [bind_ok (consumeKw_ok _ _), bind_ok (identAny_ok hname _), bind_ok (hread rest hrest),
    haction]

theorem parseStmtAny_prints {stmt : Stmt} (h : stmt.Written) :
    PrintsAll false parseStmtAny (emitStmt opts level stmt) stmt := by
  cases stmt with
  | infer stmt =>
      refine (parseInferStmt_prints _ _ h).announced (fun _ _ => consumeKw_starts) fun ts hts => ?_
      unfold parseStmtAny
      refine (bind_ok (p := peek) rfl).trans ?_
      rw [hts]
  | emit stmt =>
      refine (parseEmitStmt_prints _ _ h).announced (fun _ _ => consumeKw_starts) fun ts hts => ?_
      unfold parseStmtAny
      refine (bind_ok (p := peek) rfl).trans ?_
      rw [hts]
  | action stmt =>
      refine (parseActionStmt_prints _ _ h).announced (fun _ _ => consumeKw_starts) fun ts hts => ?_
      unfold parseStmtAny
      refine (bind_ok (p := peek) rfl).trans ?_
      rw [hts]

def startsStmt : Token → Bool
  | .kw .infer | .kw .emit | .kw .action => true
  | _ => false

theorem parseStmtAny_error (h : startsStmt (current ts) = false) :
    parseStmtAny ts = .error (unexpectedStatement (current ts)) ts := by
  unfold parseStmtAny
  refine (bind_ok (p := peek) rfl).trans ?_
  generalize current ts = t at h ⊢
  split
  · cases h
  · cases h
  · cases h
  · rfl

theorem parseStmtInRule_starts {evidence : Bool} {stmt : Stmt}
    (h : parseStmtInRule evidence ts = .ok stmt rest) : startsStmt (current ts) = true := by
  by_contra hstart
  have herror := parseStmtAny_error (eq_false_of_ne_true hstart)
  unfold parseStmtInRule at h
  rw [Scanner.bind_error herror] at h
  cases h

theorem startsStmt_close (h : atClose ts = true) : startsStmt (current ts) = false := by
  unfold atClose at h
  rw [Bool.or_eq_true, decide_eq_true_eq, decide_eq_true_eq] at h
  obtain h | h := h <;> rw [h] <;> rfl

theorem parseStmtAny_fails (ts : List Token) (h : atClose ts = true) (stmt : Stmt)
    (s : List Token) : parseStmtAny ts ≠ .ok stmt s := by
  rw [parseStmtAny_error (startsStmt_close h)]
  nofun

theorem parseStmtInRule_prints {evidence : Bool} {stmt : Stmt} (h : stmt.Written)
    (hplace : misplaced? evidence stmt = none) :
    PrintsAll false (parseStmtInRule evidence) (emitStmt opts level stmt) stmt := by
  obtain ⟨ts, hspells, hread⟩ := parseStmtAny_prints _ _ h
  refine ⟨ts, hspells, fun rest hrest => ?_⟩
  unfold parseStmtInRule
  rw [bind_ok (hread rest hrest), hplace]
  rfl

theorem parseStmtInRule_fails {evidence : Bool} (ts : List Token) (h : atClose ts = true)
    (stmt : Stmt) (s : List Token) : parseStmtInRule evidence ts ≠ .ok stmt s := by
  intro hread
  have hstart := parseStmtInRule_starts hread
  rw [startsStmt_close h] at hstart
  cases hstart

/-! ### Blocks -/

theorem emitBlock_eq (body : List Stmt) : emitBlock opts level body = " \x7b\n".toList ++
    (body.flatMap (emitStmt opts (level + 1)) ++ (indentStr opts level ++ "\x7d".toList)) := by
  delta emitBlock
  simp only [List.append_assoc]

theorem breaks_block (body : List Stmt) : breaks (emitBlock opts level body) = true := by
  rw [emitBlock_eq _ _]
  exact breaks_left (rfl : breaks " \x7b\n".toList = true) _

theorem parseBlock_prints {body : List Stmt} (h : ∀ stmt ∈ body, stmt.Written) :
    PrintsAll false parseBlock (emitBlock opts level body) body := by
  obtain ⟨ts, hspells, hread⟩ := repeated_prints (emitStmt opts (level + 1))
    parseStmtAny_fails fun stmt hstmt => parseStmtAny_prints _ _ (h stmt hstmt)
  have hopen : Spells false " \x7b\n".toList [.lBrace] :=
    (Spells.blanks 1).append (.piece rfl rfl rfl)
  have hclose : Spells false "\x7d".toList [.rBrace] := .piece rfl rfl rfl
  rw [emitBlock_eq _ _]
  refine ⟨_, hopen.append (hspells.append ((spells_indent opts level).append hclose)),
    fun rest _ => ?_⟩
  simp only [List.append_assoc, List.cons_append, List.nil_append]
  unfold parseBlock
  rw [bind_ok (punct_ok _ _), bind_ok (hread (.rBrace :: rest) rfl), bind_ok (punct_ok _ _)]
  rfl

def Ast.IfElseBlock.Written (block : IfElseBlock) : Prop :=
  block.condition.Written ∧ (∀ stmt ∈ block.thenBody, stmt.Written) ∧
    ∀ body ∈ block.elseBody, ∀ stmt ∈ body, Stmt.Written stmt

theorem else_prints {elseBody : Option (List Stmt)}
    (h : ∀ body ∈ elseBody, ∀ stmt ∈ body, Stmt.Written stmt) :
    Prints false (fun t => decide (t ≠ .kw .else_)) (optional_ (.kw .else_) (do
      consumeKw .else_
      parseBlock)) (emitElse opts level elseBody ++ "\n".toList) elseBody := by
  have hend : Spells false "\n".toList [] := .piece rfl rfl rfl
  cases elseBody with
  | none =>
      refine ⟨[], hend, fun rest hrest => ?_⟩
      exact optional_none (of_decide_eq_true hrest)
  | some body =>
      obtain ⟨ts, hspells, hread⟩ := parseBlock_prints opts level (h body rfl)
      have hword : Spells true "else".toList [word "else"] := .word (isWord_keyword .else_)
      rw [show word "else" = .kw .else_ from word_keyword .else_] at hword
      have helse : Spells true " else".toList [.kw .else_] := (Spells.blanks 1).append hword
      have htext : emitElse opts level (some body) ++ "\n".toList =
          " else".toList ++ (emitBlock opts level body ++ "\n".toList) := List.append_assoc _ _ _
      rw [htext]
      refine ⟨_, helse.before (hspells.append hend) (breaks_left (breaks_block _ _ body) _),
        fun rest _ => ?_⟩
      simp only [List.append_nil, List.cons_append, List.nil_append]
      refine optional_some ?_ rfl
      rw [bind_ok (consumeKw_ok _ _)]
      exact hread rest rfl

theorem parseIfElseBlock_prints {block : IfElseBlock} (h : block.Written) :
    Prints false (fun t => decide (t ≠ .kw .else_)) parseIfElseBlock (emitIfElse opts level block)
      block := by
  obtain ⟨hcondition, hthen, helse⟩ := h
  obtain ⟨cts, hcspells, hcread⟩ := expr_prints hcondition
  obtain ⟨tts, htspells, htread⟩ := parseBlock_prints opts level hthen
  obtain ⟨ets, hespells, heread⟩ := else_prints opts level helse
  have hif : Spells false "if ".toList [.kw .if_] := .piece rfl rfl rfl
  have htext : emitIfElse opts level block = indentStr opts level ++ ("if ".toList ++
      (emitExpr block.condition 0 ++ (emitBlock opts level block.thenBody ++
        (emitElse opts level block.elseBody ++ "\n".toList)))) := by
    delta emitIfElse
    simp only [List.append_assoc]
  rw [htext]
  refine ⟨_, (spells_indent opts level).append (hif.append (hcspells.before
    (htspells.append hespells) (breaks_left (breaks_block _ _ _) _))), fun rest hrest => ?_⟩
  simp only [List.append_assoc, List.cons_append, List.nil_append]
  have hblock := htread (ets ++ rest) rfl
  have hend : endsExpr (current (tts ++ (ets ++ rest))) = true := by
    rw [punct_starts hblock]
    rfl
  unfold parseIfElseBlock
  rw [bind_ok (consumeKw_ok _ _), bind_ok (hcread _ hend), bind_ok hblock,
    bind_ok (heread rest hrest)]
  rfl

end Statements

end Adgl
