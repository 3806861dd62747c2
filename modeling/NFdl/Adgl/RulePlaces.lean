import NFdl.Adgl.Include
import NFdl.Adgl.ParserBounds

/-!
# Where the rules of a source are

Every token stands at a place in the source. A rule goes from its first token to its last one,
and so does the ruleset. With these spans, the parser of rulesets is one that the loader of
includes can be given.
-/

namespace Adgl

open Lexer RulesetParser
open Include (ParsedRuleset AtBoundary offset takeBytes dropBytes)
open Scanner (bind_eq_ok map_ok map_error)
open Text (byteLength map_eq_ok)

/-! ### Places of tokens -/

/-- A token with the text that begins with it and the text behind it. -/
structure Placed where
  token : Token
  start : List Char
  rest : List Char

/-- The tokens of a text with their places, at most as many as the bound says. -/
def placedWithin : ℕ → List Char → List Placed
  | 0, _ => []
  | n + 1, cs =>
      match skipWsAndComments .blank cs with
      | .ok (_, c :: rest) =>
          match nextToken (c :: rest) with
          | .ok (t, after) => ⟨t, c :: rest, after⟩ :: placedWithin n after
          | .error _ => []
      | _ => []

def placed (cs : List Char) : List Placed := placedWithin (cs.length + 1) cs

variable {c : Char} {cs rest body : List Char} {ts : List Token} {t : Token} {n : ℕ}

theorem placedWithin_tokens (h : lexWithin n cs = .ok ts) :
    (placedWithin n cs).map Placed.token = ts := by
  induction n generalizing cs ts with
  | zero => cases h; rfl
  | succ n ih =>
      unfold lexWithin at h
      unfold placedWithin
      cases hskip : skipWsAndComments .blank cs with
      | error e => rw [hskip] at h; cases h
      | ok r =>
          rw [hskip] at h
          obtain ⟨comments, _ | ⟨c, rest⟩⟩ := r
          · cases h
            rfl
          · dsimp only at h ⊢
            cases htoken : nextToken (c :: rest) with
            | error e => rw [htoken] at h; cases h
            | ok r =>
                rw [htoken] at h
                obtain ⟨ts', hts', rfl⟩ := map_eq_ok h
                exact congrArg (r.1 :: ·) (ih hts')

/-- The tokens of a text stand in it, each where it is read. -/
theorem placedWithin_reads {p : Placed} (h : p ∈ placedWithin n cs) :
    p.start <:+ cs ∧
      ∃ c rest, p.start = c :: rest ∧ nextToken (c :: rest) = .ok (p.token, p.rest) := by
  induction n generalizing cs with
  | zero => cases h
  | succ n ih =>
      unfold placedWithin at h
      cases hskip : skipWsAndComments .blank cs with
      | error e => rw [hskip] at h; cases h
      | ok r =>
          rw [hskip] at h
          obtain ⟨comments, _ | ⟨c, rest⟩⟩ := r
          · cases h
          · have hrest : c :: rest <:+ cs := skip_suffix hskip
            dsimp only at h
            cases htoken : nextToken (c :: rest) with
            | error e => rw [htoken] at h; cases h
            | ok r =>
                rw [htoken] at h
                obtain rfl | h := List.mem_cons.mp h
                · exact ⟨hrest, c, rest, rfl, htoken⟩
                · obtain ⟨hstart, hreads⟩ := ih h
                  have hafter : r.2 <:+ c :: rest :=
                    (nextToken_suffix htoken).trans (List.suffix_cons ..)
                  exact ⟨hstart.trans (hafter.trans hrest), hreads⟩

theorem placedWithin_first {first p : Placed} {more : List Placed}
    (h : placedWithin n cs = first :: more) (hp : p ∈ first :: more) : p.rest <:+ first.start := by
  cases n with
  | zero => cases h
  | succ n =>
      unfold placedWithin at h
      cases hskip : skipWsAndComments .blank cs with
      | error e => rw [hskip] at h; cases h
      | ok r =>
          rw [hskip] at h
          obtain ⟨comments, _ | ⟨c, rest⟩⟩ := r
          · cases h
          · dsimp only at h
            cases htoken : nextToken (c :: rest) with
            | error e => rw [htoken] at h; cases h
            | ok r =>
                rw [htoken] at h
                cases h
                have hafter : r.2 <:+ c :: rest :=
                  (nextToken_suffix htoken).trans (List.suffix_cons ..)
                obtain rfl | hp := List.mem_cons.mp hp
                · exact hafter
                · obtain ⟨hstart, c', rest', hcons, hreads⟩ := placedWithin_reads hp
                  have hrest : p.rest <:+ p.start :=
                    hcons ▸ (nextToken_suffix hreads).trans (List.suffix_cons ..)
                  exact hrest.trans (hstart.trans hafter)

/-! ### Braces -/

theorem lexString_token {width : ℕ} {out : List Char} {r : Token × List Char}
    (h : lexString width out cs = .ok r) : ∃ s, r.1 = .string s := by
  fun_induction lexString width out cs generalizing r with
  | case1 => cases h
  | case2 => cases h; exact ⟨_, rfl⟩
  | case3 => cases h
  | case4 => cases h
  | case5 => cases h
  | case6 width out hi lo rest b hb ih => exact ih h
  | case7 => cases h
  | case8 width out other rest _ _ _ c hc ih => exact ih h
  | case9 => cases h
  | case10 width out c rest _ _ _ _ _ _ ih => exact ih h

theorem nextSingle_cases (h : nextSingle c cs = .ok (t, rest)) :
    (single c = some t ∧ rest = cs) ∨ (∃ s, t = .string s) ∨ (∃ k, t = numberToken k) ∨
      ∃ s, t = word s := by
  unfold nextSingle at h
  split at h
  · rename_i t' ht'
    cases h
    exact .inl ⟨ht', rfl⟩
  · split at h
    · exact .inr (.inl (lexString_token h))
    · split at h
      · obtain ⟨k, -, heq⟩ := map_eq_ok h
        cases heq
        exact .inr (.inr (.inl ⟨_, rfl⟩))
      · split at h
        · unfold lexIdentOrKw at h
          dsimp only at h
          split at h
          · cases h
          · split at h
            · cases h
            · split at h <;> cases h
              exact .inr (.inr (.inr ⟨_, rfl⟩))
        · cases h

/-- A token is a punctuation mark of one or two characters, or a string, a number or a word. -/
theorem nextToken_cases (h : nextToken (c :: cs) = .ok (t, rest)) :
    (single c = some t ∧ rest = cs) ∨ (∃ d, double c d = some t) ∨ (∃ s, t = .string s) ∨
      (∃ k, t = numberToken k) ∨ ∃ s, t = word s := by
  unfold nextToken at h
  split at h
  · rename_i heq
    cases heq
  · rename_i heq
    cases heq
    exact (nextSingle_cases h).imp_right .inr
  · rename_i d more heq
    cases heq
    split at h
    · rename_i t' ht'
      cases h
      exact .inr (.inl ⟨d, ht'⟩)
    · exact (nextSingle_cases h).imp_right .inr

theorem double_ne {d : Char} (h : double c d = some t) : t ≠ .rBrace ∧ t ≠ .eof := by
  unfold double at h
  split at h <;> cases h <;> exact ⟨nofun, nofun⟩

theorem word_ne (s : String) : word s ≠ .rBrace ∧ word s ≠ .eof := by
  unfold word
  split <;> exact ⟨nofun, nofun⟩

theorem numberToken_ne (k : NumberToken) : numberToken k ≠ .rBrace ∧ numberToken k ≠ .eof := by
  cases k <;> exact ⟨nofun, nofun⟩

/-- The end of the input is no token of the text. -/
theorem nextToken_ne_eof (h : nextToken (c :: cs) = .ok (t, rest)) : t ≠ .eof := by
  rintro rfl
  obtain ⟨hsingle, -⟩ | ⟨d, hdouble⟩ | ⟨s, hs⟩ | ⟨k, hk⟩ | ⟨s, hs⟩ := nextToken_cases h
  · unfold single at hsingle
    split at hsingle <;> cases hsingle
  · exact (double_ne hdouble).2 rfl
  · cases hs
  · exact (numberToken_ne k).2 hk.symm
  · exact (word_ne s).2 hs.symm

theorem nextToken_rBrace (h : nextToken (c :: cs) = .ok (.rBrace, rest)) : c = '}' ∧ rest = cs := by
  obtain ⟨hsingle, hrest⟩ | ⟨d, hdouble⟩ | ⟨s, hs⟩ | ⟨k, hk⟩ | ⟨s, hs⟩ := nextToken_cases h
  · refine ⟨?_, hrest⟩
    unfold single at hsingle
    split at hsingle <;> first | rfl | cases hsingle
  · exact absurd rfl (double_ne hdouble).1
  · cases hs
  · exact absurd hk.symm (numberToken_ne k).1
  · exact absurd hs.symm (word_ne s).1

/-! ### Bytes -/

theorem takeBytes_append (front more : List Char) :
    takeBytes (byteLength front) (front ++ more) = front := by
  induction front with
  | nil =>
      cases more with
      | nil => rfl
      | cons d more =>
          unfold takeBytes
          exact if_neg (Nat.not_le_of_lt (Char.utf8Size_pos d))
  | cons d front ih =>
      have hlength : byteLength (d :: front) = d.utf8Size + byteLength front := rfl
      rw [List.cons_append, takeBytes, hlength, if_pos (Nat.le_add_right _ _),
        Nat.add_sub_cancel_left, ih]

theorem byteLength_append (as bs : List Char) :
    byteLength (as ++ bs) = byteLength as + byteLength bs := by
  unfold byteLength
  rw [List.map_append, List.sum_append]

/-- Where the rest of a text begins, a character of the text begins. -/
theorem offset_boundary (h : rest <:+ body) :
    AtBoundary body (offset body rest) ∧ dropBytes (offset body rest) body = rest := by
  obtain ⟨front, rfl⟩ := h
  have hoffset : offset (front ++ rest) rest = byteLength front := by
    unfold offset
    rw [byteLength_append, Nat.add_sub_cancel]
  unfold AtBoundary dropBytes
  rw [hoffset, takeBytes_append]
  exact ⟨rfl, List.drop_left⟩

/-- Before the rest of a text behind a brace is the brace. -/
theorem offset_brace (h : '}' :: rest <:+ body) :
    0 < offset body rest ∧ offset body rest - 1 = offset body ('}' :: rest) := by
  obtain ⟨front, rfl⟩ := h
  have hlength : byteLength ('}' :: rest) = 1 + byteLength rest := rfl
  unfold offset
  rw [byteLength_append, hlength]
  omega

/-! ### Spans -/

/-- A value with the numbers of tokens that were left before and after it. -/
def counted {α : Type} (p : TokenM α) : TokenM (α × ℕ × ℕ) := fun ts =>
  match p ts with
  | .ok a rest => .ok (a, ts.length, rest.length) rest
  | .error e rest => .error e rest

/-- The parser of rulesets, with the tokens that are left around every rule. -/
def countedRuleset : ItemM (SourceRuleset × List (ℕ × ℕ)) := do
  let (name, version) ← (item parseHead : ItemM _)
  let decls ← membersUntil (fun ts => !atDecl ts) (member parseDecl) []
  let rules ← membersUntil (fun ts => !atRule ts) (member (counted parseRule)) []
  (item parseEnd : ItemM _)
  pure ({ name, version, decls, rules := rules.map Prod.fst }, rules.map Prod.snd)

section Counted

variable {α β : Type} (p : TokenM α)

theorem fst_counted : Prod.fst <$> counted p = p := by
  funext ts
  change EStateM.map _ (counted p) ts = p ts
  unfold EStateM.map counted
  cases p ts <;> rfl

theorem map_item (g : α → β) : g <$> item p = item (g <$> p) := by
  funext i
  cases hp : p i.tokens with
  | ok a ts =>
      have hitem : item p i = .ok a (i.leave ts) := by
        unfold item
        rw [hp]
      rw [map_ok hitem]
      unfold item
      rw [map_ok hp]
  | error e ts =>
      have hitem : item p i = .error e (i.leave ts) := by
        unfold item
        rw [hp]
      rw [map_error hitem]
      unfold item
      rw [map_error hp]

theorem map_member {as : List (α × ℕ × ℕ)} :
    List.map Prod.fst <$> member (counted p) as = member p (as.map Prod.fst) := by
  have hitem : Prod.fst <$> (liftM (item (counted p)) : ItemM _) = (liftM (item p) : ItemM α) := by
    change Prod.fst <$> Recovery.silently (item (counted p)) = Recovery.silently (item p)
    rw [Recovery.map_silently, map_item, fst_counted]
  unfold member
  rw [map_bind, ← hitem, ← Recovery.map_recoverItem, bind_map_left]
  refine congrArg _ (funext fun a => ?_)
  rw [map_pure, List.map_append]
  cases a <;> rfl

end Counted

/-- The parser with places is the parser of rulesets. -/
theorem fst_countedRuleset : Prod.fst <$> countedRuleset = rulesetParser := by
  have hrules : List.map Prod.fst <$> membersUntil (fun ts => !atRule ts)
      (member (counted parseRule)) [] = membersUntil (fun ts => !atRule ts) (member parseRule) [] :=
    Scanner.map_untilStop (fun _ => map_member parseRule) []
  unfold countedRuleset rulesetParser
  rw [← hrules]
  simp only [map_bind, map_pure, bind_map_left]

theorem punct_eq_ok {kind : Token} {u : Unit} {more : List Token} (h : punct kind ts = .ok u more) :
    ts = kind :: more := by
  unfold punct run ExprParser.consumePunct Parser.one at h
  cases ts with
  | nil => cases h
  | cons t ts =>
      by_cases ht : t = kind
      · simp only [if_pos ht] at h
        cases h
        rw [ht]
      · simp only [if_neg ht] at h
        cases h

/-- The end of a ruleset is a brace, and nothing follows it. -/
theorem parseEnd_tokens {tokens rest : List Token} (heof : ∀ t ∈ tokens, t ≠ .eof)
    (h : parseEnd tokens = .ok () rest) : tokens = [.rBrace] := by
  obtain ⟨_, more, hbrace, hmore⟩ := bind_eq_ok h
  have htokens : tokens = .rBrace :: more := punct_eq_ok hbrace
  obtain ⟨t, more', hpeek, hreject⟩ := bind_eq_ok hmore
  cases hpeek
  unfold rejectIf at hreject
  split at hreject
  · cases hreject
  · rename_i ht
    have ht : current more = .eof := Decidable.not_not.mp ht
    cases more with
    | nil => exact htokens
    | cons t more =>
        have hmem : t ∈ tokens := htokens ▸ List.mem_cons_of_mem _ (List.mem_cons_self ..)
        exact absurd ht (heof t hmem)

/-- The last token of a ruleset is its closing brace. -/
theorem rulesetParser_last {s : Recovery.State Input ParseError} {ast : SourceRuleset}
    (heof : ∀ t ∈ ts, t ≠ .eof) (h : rulesetParser ⟨⟨ts, 0⟩, true, []⟩ = .ok ast s) :
    ts.getLast? = some .rBrace := by
  have hok : (items ts).Ok ⟨⟨ts, 0⟩, true, []⟩ := ⟨List.suffix_rfl, List.not_mem_nil⟩
  obtain ⟨head, s₁, hhead, h⟩ := bind_eq_ok h
  have hok₁ := Scanner.Settles.keeps (fun _ => item_settles fun _ => parseHead_settles) hok hhead
  obtain ⟨decls, s₂, hdecls, h⟩ := bind_eq_ok h
  have hok₂ := Scanner.Settles.keeps
    (fun _ => membersUntil_settles rfl fun _ hok => parseDecl_ends hok) hok₁ hdecls
  obtain ⟨rules, s₃, hrules, h⟩ := bind_eq_ok h
  have hok₃ := Scanner.Settles.keeps
    (fun _ => membersUntil_settles rfl fun _ hok => parseRule_ends hok) hok₂ hrules
  obtain ⟨_, s₄, hend, -⟩ := bind_eq_ok h
  have hparsed : ∃ rest, parseEnd s₃.input.tokens = .ok () rest := by
    change Recovery.silently (item parseEnd) s₃ = _ at hend
    unfold Recovery.silently item at hend
    cases hr : parseEnd s₃.input.tokens with
    | ok u rest => exact ⟨rest, rfl⟩
    | error e rest =>
        rw [hr] at hend
        cases hend
  obtain ⟨rest, hparsed⟩ := hparsed
  have hrest : s₃.input.tokens <:+ ts := hok₃.1
  rw [parseEnd_tokens (fun t ht => heof t (hrest.subset ht)) hparsed] at hrest
  obtain ⟨front, rfl⟩ := hrest
  exact List.getLast?_concat ..

/-- A ruleset has a span for each of its rules. -/
theorem countedRuleset_length {s s' : Recovery.State Input ParseError}
    {r : SourceRuleset × List (ℕ × ℕ)} (h : countedRuleset s = .ok r s') :
    r.2.length = r.1.rules.length := by
  obtain ⟨head, s₁, -, h⟩ := bind_eq_ok h
  obtain ⟨decls, s₂, -, h⟩ := bind_eq_ok h
  obtain ⟨rules, s₃, -, h⟩ := bind_eq_ok h
  obtain ⟨_, s₄, -, h⟩ := bind_eq_ok h
  cases h
  rw [List.length_map]
  exact (List.length_map _).symm

/-! ### The parser of the loader -/

/-- The text that begins where so many tokens are left. -/
def startAt (ps : List Placed) (left : ℕ) : List Char :=
  ((ps.drop (ps.length - left)).head?.map Placed.start).getD []

/-- The text behind the token after which so many tokens are left. -/
def stopAt (ps : List Placed) (left : ℕ) : List Char :=
  ((ps.take (ps.length - left)).getLast?.map Placed.rest).getD []

/-- The span of a part of a source, by the tokens that are left before and after it. -/
def spanOf (body : List Char) (left : ℕ × ℕ) : Diag.Span :=
  .new (offset body (startAt (placed body) left.1)) (offset body (stopAt (placed body) left.2))

/-- Parse a source and collect all its errors, with the tokens around its rules. -/
def parseCounted (cs : List Char) :
    Except (List (String × String)) (SourceRuleset × List (ℕ × ℕ)) :=
  match tokenize cs with
  | .error e => .error [diagOf (.lexical e)]
  | .ok ts =>
      match countedRuleset ⟨⟨ts, 0⟩, true, []⟩ with
      | .ok r s => if s.diags = [] then .ok r else .error (s.diags.map diagOf)
      | .error e s => .error ((s.diags ++ [e]).map diagOf)

theorem parseCounted_fst (cs : List Char) : (parseCounted cs).map Prod.fst = parseRuleset cs := by
  unfold parseCounted parseRuleset
  cases tokenize cs with
  | error e => rfl
  | ok ts =>
      dsimp only
      rw [← fst_countedRuleset]
      cases hr : countedRuleset ⟨⟨ts, 0⟩, true, []⟩ with
      | ok r s =>
          rw [map_ok hr]
          dsimp only
          split <;> rfl
      | error e s =>
          rw [map_error hr]
          rfl

theorem startAt_suffix (body : List Char) (left : ℕ) : startAt (placed body) left <:+ body := by
  unfold startAt
  cases hp : ((placed body).drop ((placed body).length - left)).head? with
  | none => exact List.nil_suffix
  | some p =>
      obtain ⟨hstart, -⟩ := placedWithin_reads (List.mem_of_mem_drop (List.mem_of_head? hp))
      exact hstart

theorem stopAt_suffix (body : List Char) (left : ℕ) : stopAt (placed body) left <:+ body := by
  unfold stopAt
  cases hp : ((placed body).take ((placed body).length - left)).getLast? with
  | none => exact List.nil_suffix
  | some p =>
      obtain ⟨hstart, c, rest, hcons, hreads⟩ :=
        placedWithin_reads (List.mem_of_mem_take (List.mem_of_getLast? hp))
      have hrest : p.rest <:+ p.start :=
        hcons ▸ (nextToken_suffix hreads).trans (List.suffix_cons ..)
      exact hrest.trans hstart

theorem spanOf_boundary (body : List Char) (left : ℕ × ℕ) :
    AtBoundary body (spanOf body left).start ∧ AtBoundary body (spanOf body left).stop := by
  obtain ⟨hstart, -⟩ := offset_boundary (startAt_suffix body left.1)
  obtain ⟨hstop, -⟩ := offset_boundary (stopAt_suffix body left.2)
  refine ⟨hstart, ?_⟩
  change AtBoundary body (max _ _)
  obtain hmax | hmax := Nat.le_total (offset body (stopAt (placed body) left.2))
    (offset body (startAt (placed body) left.1))
  · rwa [Nat.max_eq_right hmax]
  · rwa [Nat.max_eq_left hmax]

theorem spans_boundary (body : List Char) (spans : List (ℕ × ℕ)) :
    ∀ rule ∈ spans.map (spanOf body), AtBoundary body rule.start ∧ AtBoundary body rule.stop := by
  intro rule hrule
  obtain ⟨left, -, rfl⟩ := List.mem_map.mp hrule
  exact spanOf_boundary body left

/-- The span of a whole source. -/
def wholeSpan (body : List Char) : Diag.Span := spanOf body ((placed body).length, 0)

/-- The tokens of a source that is parsed end with a brace. -/
theorem placed_getLast {r : SourceRuleset × List (ℕ × ℕ)} (h : parseCounted body = .ok r) :
    ∃ p, (placed body).getLast? = some p ∧ p.token = .rBrace := by
  unfold parseCounted at h
  cases htokens : tokenize body with
  | error e =>
      rw [htokens] at h
      cases h
  | ok ts =>
      rw [htokens] at h
      obtain ⟨-, hlex, -⟩ := tokenize_eq_ok_iff.mp htokens
      have hplaced : (placed body).map Placed.token = ts := placedWithin_tokens hlex
      have heof : ∀ t ∈ ts, t ≠ .eof := by
        intro t ht
        obtain ⟨p, hp, rfl⟩ := List.mem_map.mp (hplaced ▸ ht)
        obtain ⟨-, c, rest, -, hreads⟩ := placedWithin_reads hp
        exact nextToken_ne_eof hreads
      have hlast : ts.getLast? = some .rBrace := by
        dsimp only at h
        cases hr : countedRuleset ⟨⟨ts, 0⟩, true, []⟩ with
        | ok r' s =>
            have hparsed := map_ok (g := Prod.fst) hr
            rw [fst_countedRuleset] at hparsed
            exact rulesetParser_last heof hparsed
        | error e s =>
            rw [hr] at h
            cases h
      rw [← hplaced, List.getLast?_map] at hlast
      exact Option.map_eq_some_iff.mp hlast

/-- The span of a whole source goes to the end of its last token. -/
theorem wholeSpan_stop {p : Placed} (hp : (placed body).getLast? = some p) :
    (wholeSpan body).stop = offset body p.rest := by
  have hmem : p ∈ placed body := List.mem_of_getLast? hp
  obtain ⟨first, more, hall⟩ := List.exists_cons_of_ne_nil (List.ne_nil_of_mem hmem)
  have hstart : startAt (placed body) (placed body).length = first.start := by
    unfold startAt
    rw [Nat.sub_self, List.drop_zero, hall]
    rfl
  have hstop : stopAt (placed body) 0 = p.rest := by
    unfold stopAt
    rw [Nat.sub_zero, List.take_length, hp]
    rfl
  have hsuffix : p.rest <:+ first.start := placedWithin_first hall (hall ▸ hmem)
  have hfirst : offset body first.start ≤ offset body p.rest := by
    obtain ⟨front, hfront⟩ := hsuffix
    unfold offset
    rw [← hfront, byteLength_append]
    omega
  change max _ _ = _
  rw [hstop, hstart]
  exact Nat.max_eq_left hfirst

/-- A source that is parsed ends with a brace, and so does its span. -/
theorem wholeSpan_closing {r : SourceRuleset × List (ℕ × ℕ)} (h : parseCounted body = .ok r) :
    0 < (wholeSpan body).stop ∧
      (dropBytes ((wholeSpan body).stop - 1) body).head? = some '}' ∧
      AtBoundary body ((wholeSpan body).stop - 1) := by
  obtain ⟨p, hp, htoken⟩ := placed_getLast h
  obtain ⟨hstart, c, rest, hcons, hreads⟩ := placedWithin_reads (List.mem_of_getLast? hp)
  rw [htoken] at hreads
  obtain ⟨rfl, hrest⟩ := nextToken_rBrace hreads
  rw [hcons, ← hrest] at hstart
  obtain ⟨hpos, hbrace⟩ := offset_brace hstart
  obtain ⟨hboundary, hdrop⟩ := offset_boundary hstart
  rw [wholeSpan_stop hp, hbrace, hdrop]
  exact ⟨hpos, rfl, hboundary⟩

/-- The parser of rulesets as the loader uses it. Its errors come without their spans. -/
def placedParser : Include.Parser := fun body =>
  match h : parseCounted body with
  | .error ds => .error (ds.map fun d => .error d.1 d.2 .unknown)
  | .ok r =>
      .ok ⟨r.2.map (spanOf body), wholeSpan body, spans_boundary body r.2, wholeSpan_closing h⟩

theorem parseCounted_length {r : SourceRuleset × List (ℕ × ℕ)} (h : parseCounted cs = .ok r) :
    r.2.length = r.1.rules.length := by
  unfold parseCounted at h
  split at h
  · cases h
  · split at h
    · rename_i hr
      split at h <;> cases h
      exact countedRuleset_length hr
    · cases h

/-- The loader is given what the parser of rulesets makes of a source: a span for each rule, or
the errors. -/
theorem placedParser_parses (body : List Char) :
    (∃ ast p, parseRuleset body = .ok ast ∧ placedParser body = .ok p ∧
      p.rules.length = ast.rules.length) ∨
    ∃ ds, parseRuleset body = .error ds ∧
      placedParser body = .error (ds.map fun d => .error d.1 d.2 .unknown) := by
  unfold placedParser
  split
  · rename_i ds h
    have herror : parseRuleset body = .error ds := by
      rw [← parseCounted_fst, h]
      rfl
    exact .inr ⟨ds, herror, rfl⟩
  · rename_i r h
    have hast : parseRuleset body = .ok r.1 := by
      rw [← parseCounted_fst, h]
      rfl
    refine .inl ⟨r.1, _, hast, rfl, ?_⟩
    rw [List.length_map, parseCounted_length h]

end Adgl
