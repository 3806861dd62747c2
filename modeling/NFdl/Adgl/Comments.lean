import NFdl.Adgl.Spelling

/-!
# The comments of an ADGL text

The formatter looks for the comments of a source by itself. Where the lexer accepts the source,
it finds those that the lexer skips. A comment on a line of its own is skipped in front of any
text.
-/

namespace Adgl

open Lexer Fmt
open Text (map_eq_ok)

variable {c d : Char} {cs body rest text : List Char} {ts : List Token} {n : ℕ}

/-! ### Comments by themselves -/

/-- The text behind the opening of a block comment, up to the end that closes it. -/
def closes : List Char → Bool
  | '*' :: '/' :: rest => rest.isEmpty
  | _ :: rest => closes rest
  | [] => false

/-- A comment: up to the end of the line, or up to the closing that comes first. -/
inductive IsComment : List Char → Prop where
  | line {body : List Char} (h : '\n' ∉ body) : IsComment ('/' :: '/' :: body)
  | block {body : List Char} (h : closes body = true) : IsComment ('/' :: '*' :: body)

theorem closes_cons (h : ¬ (c = '*' ∧ ∃ more, cs = '/' :: more)) :
    closes (c :: cs) = closes cs := by
  rw [closes]
  rintro more rfl rfl
  exact h ⟨rfl, more, rfl⟩

theorem skip_line (h : '\n' ∉ body) (rest : List Char) :
    skipWsAndComments (.line text) (body ++ '\n' :: rest) =
      (skipWsAndComments .blank rest).map (withComment (text ++ body)) := by
  induction body generalizing text with
  | nil => rw [List.nil_append, List.append_nil, skipWsAndComments, if_pos rfl]
  | cons c cs ih =>
      obtain ⟨hc, hcs⟩ := not_or.mp (List.mem_cons.not.mp h)
      rw [List.cons_append, skipWsAndComments, if_neg (Ne.symm hc), ih hcs, List.append_assoc]
      rfl

theorem skip_block (h : closes body = true) (rest : List Char) :
    skipWsAndComments (.block text) (body ++ rest) =
      (skipWsAndComments .blank rest).map (withComment (text ++ body)) := by
  fun_induction closes body generalizing text with
  | case1 more =>
      obtain rfl := List.isEmpty_iff.mp h
      rfl
  | case2 c cs hopen ih =>
      have hcs : skipWsAndComments (.block (text ++ [c])) (cs ++ rest) =
          (skipWsAndComments .blank rest).map (withComment (text ++ [c] ++ cs)) := ih h
      rw [List.append_assoc] at hcs
      rw [List.cons_append, skipWsAndComments, hcs]
      · rfl
      · intro more hc hmore
        cases cs with
        | nil => cases h
        | cons d cs =>
            obtain ⟨rfl, rfl⟩ := List.cons.inj hmore
            exact hopen cs hc rfl
  | case3 => cases h

theorem collect_line (h : '\n' ∉ body) (rest : List Char) :
    collectComments (.line text) (body ++ '\n' :: rest) =
      (text ++ body) :: collectComments .code rest := by
  induction body generalizing text with
  | nil => rw [List.nil_append, List.append_nil, collectComments, if_pos rfl]
  | cons c cs ih =>
      obtain ⟨hc, hcs⟩ := not_or.mp (List.mem_cons.not.mp h)
      rw [List.cons_append, collectComments, if_neg (Ne.symm hc), ih hcs, List.append_assoc]
      rfl

theorem collect_block (h : closes body = true) (rest : List Char) :
    collectComments (.block text) (body ++ rest) =
      (text ++ body) :: collectComments .code rest := by
  fun_induction closes body generalizing text with
  | case1 more =>
      obtain rfl := List.isEmpty_iff.mp h
      rfl
  | case2 c cs hopen ih =>
      have hcs : collectComments (.block (text ++ [c])) (cs ++ rest) =
          (text ++ [c] ++ cs) :: collectComments .code rest := ih h
      rw [List.append_assoc] at hcs
      rw [List.cons_append, collectComments, hcs]
      · rfl
      · intro more hc hmore
        cases cs with
        | nil => cases h
        | cons d cs =>
            obtain ⟨rfl, rfl⟩ := List.cons.inj hmore
            exact hopen cs hc rfl
  | case3 => cases h

/-- The lexer skips a comment on a line of its own. -/
theorem lex_comment (h : IsComment text) (rest : List Char) :
    lex (text ++ '\n' :: rest) = lex rest := by
  have hskip : skipWsAndComments .blank (text ++ '\n' :: rest) =
      (skipWsAndComments .blank rest).map (withComment text) := by
    cases h with
    | line h => exact skip_line h rest
    | block h => exact skip_block h ('\n' :: rest)
  rw [lex_eq, lex_eq rest, hskip]
  cases skipWsAndComments .blank rest with
  | error e => rfl
  | ok r => obtain ⟨comments, _ | ⟨c, more⟩⟩ := r <;> rfl

theorem collect_comment (h : IsComment text) (rest : List Char) :
    collectComments .code (text ++ '\n' :: rest) = text :: collectComments .code rest := by
  cases h with
  | line h => exact collect_line h rest
  | block h => exact collect_block h ('\n' :: rest)

/-- What is a comment once the search for its end is over. -/
def Opened (cs : List Char) : Place → Prop
  | .line text => ∃ body, text = '/' :: '/' :: body ∧ '\n' ∉ body
  | .block text => ∀ body rest, cs = body ++ rest → closes body = true → IsComment (text ++ body)
  | _ => True

/-- The search finds comments only. -/
theorem collect_isComment (src : List Char) : ∀ text ∈ collectAdglComments src, IsComment text := by
  have hplace : ∀ place cs, Opened cs place →
      ∀ text ∈ collectComments place cs, IsComment text := by
    intro place cs h text htext
    fun_induction collectComments place cs with
    | case1 rest ih => exact ih ⟨[], rfl, List.not_mem_nil⟩ htext
    | case2 rest ih => exact ih (fun body _ _ hbody => .block hbody) htext
    | case3 rest ih => exact ih trivial htext
    | case4 _ rest _ _ _ ih => exact ih trivial htext
    | case5 => cases htext
    | case6 line rest ih =>
        obtain ⟨body, rfl, hbody⟩ := h
        obtain rfl | htext := List.mem_cons.mp htext
        · exact .line hbody
        · exact ih trivial htext
    | case7 line c rest hc ih =>
        obtain ⟨body, rfl, hbody⟩ := h
        refine ih ⟨body ++ [c], rfl, fun hmem => ?_⟩ htext
        obtain hmem | hmem := List.mem_append.mp hmem
        · exact hbody hmem
        · exact hc (List.mem_singleton.mp hmem).symm
    | case8 line =>
        obtain ⟨body, rfl, hbody⟩ := h
        rw [List.mem_singleton.mp htext]
        exact .line hbody
    | case9 block rest ih =>
        obtain rfl | htext := List.mem_cons.mp htext
        · exact h ['*', '/'] rest rfl rfl
        · exact ih trivial htext
    | case10 block c rest hopen ih =>
        refine ih (fun body more hrest hbody => ?_) htext
        have hcons : closes (c :: body) = true := by
          rw [closes_cons, hbody]
          rintro ⟨rfl, tail, rfl⟩
          exact hopen (tail ++ more) rfl hrest
        rw [List.append_assoc]
        exact h (c :: body) more (congrArg (c :: ·) hrest) hcons
    | case11 => cases htext
    | case12 _ rest ih => exact ih trivial htext
    | case13 rest ih => exact ih trivial htext
    | case14 _ rest _ _ ih => exact ih trivial htext
    | case15 => cases htext
  exact hplace .code src trivial

/-- The lexer skips the comments that the formatter puts in front. -/
theorem lex_comments {comments : List (List Char)} (h : ∀ text ∈ comments, IsComment text)
    (rest : List Char) : lex (emitComments comments ++ rest) = lex rest := by
  induction comments with
  | nil => rfl
  | cons text more ih =>
      obtain ⟨htext, hmore⟩ := List.forall_mem_cons.mp h
      unfold emitComments at ih ⊢
      rw [List.flatMap_cons, List.append_assoc, List.append_assoc]
      exact (lex_comment htext _).trans (ih hmore)

theorem collect_comments {comments : List (List Char)} (h : ∀ text ∈ comments, IsComment text)
    (rest : List Char) :
    collectComments .code (emitComments comments ++ rest) =
      comments ++ collectComments .code rest := by
  induction comments with
  | nil => rfl
  | cons text more ih =>
      obtain ⟨htext, hmore⟩ := List.forall_mem_cons.mp h
      unfold emitComments at ih ⊢
      rw [List.flatMap_cons, List.append_assoc, List.append_assoc]
      exact (collect_comment htext _).trans (congrArg (text :: ·) (ih hmore))

/-! ### The comments of a text that the lexer accepts -/

/-- A character that neither a comment nor a string begins with. -/
abbrev Solid (c : Char) : Prop := c ≠ '/' ∧ c ≠ '"'

theorem Solid.continues (h : isIdentContinue c = true) : Solid c := by
  constructor
  · rintro rfl
    exact absurd h (by decide)
  · rintro rfl
    exact absurd h (by decide)

theorem collect_drop (h : ∀ c ∈ cs.take n, Solid c) :
    collectComments .code cs = collectComments .code (cs.drop n) := by
  have hplain := collect_plain h (cs.drop n)
  rwa [List.take_append_drop] at hplain

theorem lexIdentOrKw_collect {r : Token × List Char} (h : lexIdentOrKw cs = .ok r) :
    collectComments .code cs = collectComments .code r.2 := by
  unfold lexIdentOrKw at h
  dsimp only at h
  split at h
  · cases h
  · split at h
    · cases h
    · split at h <;> cases h
      refine collect_drop fun c hc => .continues ?_
      rw [← List.prefix_iff_eq_take.mp (List.takeWhile_prefix _)] at hc
      exact List.mem_takeWhile_imp hc

/-- The text of a number is a prefix without slashes and quotes. -/
theorem scanNumber_solid (cs : List Char) :
    (scanNumber cs).2 <+: cs ∧ ∀ c ∈ (scanNumber cs).2, Solid c := by
  have hrun : ∀ {radix} {more : List Char}, (radix = 2 ∨ radix = 10 ∨ radix = 16) →
      ∀ c ∈ more.takeWhile (inRun radix), Solid c := by
    intro radix more hradix c hc
    have hin := List.mem_takeWhile_imp hc
    constructor
    · rintro rfl
      obtain rfl | rfl | rfl := hradix <;> exact absurd hin (by decide)
    · rintro rfl
      obtain rfl | rfl | rfl := hradix <;> exact absurd hin (by decide)
  have hmarked : ∀ {radix} {c : Char} {more : List Char}, (radix = 2 ∨ radix = 10 ∨ radix = 16) →
      Solid c → ('0' :: c :: more.takeWhile (inRun radix)) <+: '0' :: c :: more ∧
        ∀ d ∈ '0' :: c :: more.takeWhile (inRun radix), Solid d := by
    intro radix c more hradix hc
    refine ⟨?_, ?_⟩
    · exact List.cons_prefix_cons.mpr
        ⟨rfl, List.cons_prefix_cons.mpr ⟨rfl, List.takeWhile_prefix _⟩⟩
    · refine List.forall_mem_cons.mpr ⟨by decide, List.forall_mem_cons.mpr ⟨hc, hrun hradix⟩⟩
  unfold scanNumber
  split
  · exact hmarked (.inr (.inr rfl)) (by decide)
  · exact hmarked (.inr (.inr rfl)) (by decide)
  · exact hmarked (.inl rfl) (by decide)
  · exact hmarked (.inl rfl) (by decide)
  · exact ⟨List.takeWhile_prefix _, hrun (.inr (.inl rfl))⟩

theorem lexUnit_solid {value : Int64} {width : ℕ} {r : NumberToken × ℕ}
    (h : lexUnit value width cs = .ok r) :
    ∃ k, r.2 = width + k ∧ ∀ c ∈ cs.take k, Solid c := by
  have hcontinue : ∀ {cs : List Char}, cs.all isIdentContinue = true → ∀ c ∈ cs, Solid c :=
    fun hall c hc => .continues (List.all_eq_true.mp hall c hc)
  unfold lexUnit at h
  split at h
  · cases h
    exact ⟨2, rfl, hcontinue rfl⟩
  · split at h <;> cases h
    · exact ⟨0, rfl, fun c hc => by cases hc⟩
    · exact ⟨1, rfl, hcontinue rfl⟩
  · cases h
    exact ⟨3, rfl, hcontinue rfl⟩
  · cases h
  · cases h
    exact ⟨0, rfl, fun c hc => by cases hc⟩

theorem lexNumber_collect {r : Token × List Char} (h : lexNumber cs = .ok r) :
    collectComments .code cs = collectComments .code r.2 := by
  obtain ⟨r', hr', rfl⟩ := map_eq_ok h
  obtain ⟨⟨more, hmore⟩, hsolid⟩ := scanNumber_solid cs
  unfold lexNumberOrDuration at hr'
  split at hr'
  rename_i radix text hscan
  rw [hscan] at hmore hsolid
  split at hr'
  · cases hr'
  · split at hr'
    · cases hr'
    · obtain ⟨k, hk, hunit⟩ := lexUnit_solid hr'
      dsimp only at hmore hsolid hunit ⊢
      rw [← hmore, hk, collect_plain hsolid, ← List.drop_drop, List.drop_left]
      rw [← hmore, List.drop_left] at hunit
      exact collect_drop hunit

theorem toDigit_solid {c : Char} {a : ℕ} (h : NFdl.Lexer.toDigit 16 c = some a) :
    c ≠ '\\' ∧ c ≠ '"' := by
  constructor
  · rintro rfl
    cases h
  · rintro rfl
    cases h

theorem hexByte_solid {hi lo : Char} {b : ℕ} (h : hexByte hi lo = some b) :
    (hi ≠ '\\' ∧ hi ≠ '"') ∧ lo ≠ '\\' ∧ lo ≠ '"' := by
  unfold hexByte at h
  split at h
  · rename_i hhi hlo
    exact ⟨toDigit_solid hhi, toDigit_solid hlo⟩
  · rename_i hlo
    split at h
    · rename_i hsign
      exact ⟨by rw [hsign]; decide, toDigit_solid hlo⟩
    · cases h
  · cases h

theorem collect_inString (h : c ≠ '\\' ∧ c ≠ '"') (rest : List Char) :
    collectComments .string (c :: rest) = collectComments .string rest := by
  rw [collectComments]
  · rintro _ _ rfl
    exact fun _ => h.1 rfl
  · rintro rfl
    exact h.2 rfl

/-- The search leaves a string where the lexer does. -/
theorem lexString_collect {width : ℕ} {out : List Char} {r : Token × List Char}
    (h : lexString width out cs = .ok r) :
    collectComments .string cs = collectComments .code r.2 := by
  fun_induction lexString width out cs generalizing r with
  | case2 =>
      cases h
      rfl
  | case6 _ _ hi lo rest b hbyte ih =>
      obtain ⟨hhi, hlo⟩ := hexByte_solid hbyte
      rw [collectComments, collect_inString hhi, collect_inString hlo]
      exact ih h
  | case8 _ _ other rest _ _ _ _ _ ih =>
      rw [collectComments]
      exact ih h
  | case10 _ _ c rest hquote hlast _ _ _ hmore ih =>
      have hslash : c ≠ '\\' := by
        intro hc
        cases rest with
        | nil => exact hlast hc rfl
        | cons d rest => exact hmore d rest hc rfl
      rw [collect_inString ⟨hslash, hquote⟩]
      exact ih h
  | _ => cases h

/-- A comment begins at the text. -/
def Opens (cs : List Char) : Prop := ∃ more, cs = '/' :: '/' :: more ∨ cs = '/' :: '*' :: more

theorem collect_step (hquote : c ≠ '"') (hopen : ¬ Opens (c :: rest)) :
    collectComments .code (c :: rest) = collectComments .code rest := by
  rw [collectComments]
  · rintro more rfl rfl
    exact hopen ⟨more, .inl rfl⟩
  · rintro more rfl rfl
    exact hopen ⟨more, .inr rfl⟩
  · exact hquote

theorem nextSingle_collect {r : Token × List Char} (hopen : ¬ Opens (c :: rest))
    (h : nextSingle c rest = .ok r) :
    collectComments .code (c :: rest) = collectComments .code r.2 := by
  unfold nextSingle at h
  split at h
  · rename_i t hsingle
    cases h
    refine collect_step ?_ hopen
    rintro rfl
    cases hsingle
  · split at h
    · rename_i hquote
      subst hquote
      exact lexString_collect h
    · split at h
      · exact lexNumber_collect h
      · split at h
        · exact lexIdentOrKw_collect h
        · cases h

/-- There are no comments in a token. -/
theorem nextToken_collect {r : Token × List Char} (hopen : ¬ Opens cs)
    (h : nextToken cs = .ok r) : collectComments .code cs = collectComments .code r.2 := by
  unfold nextToken at h
  split at h
  · cases h
    rfl
  · exact nextSingle_collect hopen h
  · split at h
    · rename_i t hdouble
      cases h
      unfold double at hdouble
      split at hdouble <;> cases hdouble <;> rfl
    · exact nextSingle_collect hopen h

/-- Where the formatter is when the lexer looks for the next token. -/
def placeOf : Lexer.Scan → Place
  | .blank => .code
  | .line text => .line text
  | .block text => .block text

/-- What the lexer skips in front of a token are the comments there. -/
theorem skip_collect {scan : Lexer.Scan} {r : List (List Char) × List Char}
    (h : skipWsAndComments scan cs = .ok r) :
    collectComments (placeOf scan) cs = r.1 ++ collectComments .code r.2 ∧ ¬ Opens r.2 := by
  have hclosed : ∀ {c rest}, (∀ more, c = '/' → rest = '/' :: more → False) →
      (∀ more, c = '/' → rest = '*' :: more → False) → ¬ Opens (c :: rest) := by
    rintro c rest hline hblock ⟨more, hopen | hopen⟩
    · obtain ⟨hc, hrest⟩ := List.cons.inj hopen
      exact hline more hc hrest
    · obtain ⟨hc, hrest⟩ := List.cons.inj hopen
      exact hblock more hc hrest
  have hnone : ¬ Opens [] := by
    rintro ⟨more, hopen | hopen⟩ <;> cases hopen
  fun_induction skipWsAndComments scan cs generalizing r with
  | case1 rest ih => exact ih h
  | case2 rest ih => exact ih h
  | case3 c rest hline hblock hblank ih =>
      refine ⟨(collect_step ?_ (hclosed hline hblock)).trans (ih h).1, (ih h).2⟩
      rintro rfl
      cases hblank
  | case4 c rest hline hblock =>
      cases h
      exact ⟨rfl, hclosed hline hblock⟩
  | case5 =>
      cases h
      exact ⟨rfl, hnone⟩
  | case6 text rest ih =>
      obtain ⟨r', hr', rfl⟩ := map_eq_ok h
      have hend : collectComments (.line text) ('\n' :: rest) =
          text :: collectComments .code rest := if_pos rfl
      exact ⟨hend.trans (congrArg (text :: ·) (ih hr').1), (ih hr').2⟩
  | case7 text c rest hc ih =>
      have hstep : collectComments (.line text) (c :: rest) =
          collectComments (.line (text ++ [c])) rest := if_neg hc
      exact ⟨hstep.trans (ih h).1, (ih h).2⟩
  | case8 =>
      cases h
      exact ⟨rfl, hnone⟩
  | case9 text rest ih =>
      obtain ⟨r', hr', rfl⟩ := map_eq_ok h
      exact ⟨congrArg ((text ++ ['*', '/']) :: ·) (ih hr').1, (ih hr').2⟩
  | case10 text c rest hopen ih =>
      have hstep : collectComments (.block text) (c :: rest) =
          collectComments (.block (text ++ [c])) rest := by
        rw [collectComments]
        exact hopen
      exact ⟨hstep.trans (ih h).1, (ih h).2⟩
  | case11 => cases h

/-- The comments that the lexer skips, at most before as many tokens as the bound says. -/
def skippedWithin : ℕ → List Char → List (List Char)
  | 0, _ => []
  | n + 1, cs =>
      match skipWsAndComments .blank cs with
      | .error _ => []
      | .ok (comments, []) => comments
      | .ok (comments, c :: rest) =>
          match nextToken (c :: rest) with
          | .error _ => comments
          | .ok (_, rest) => comments ++ skippedWithin n rest

def skipped (cs : List Char) : List (List Char) := skippedWithin (cs.length + 1) cs

/-- Of a source that the lexer accepts, the formatter collects what the lexer skips: each comment
once, as it is written and in the order of the source, and nothing of what is inside a string. -/
theorem collectAdglComments_skipped {src : List Char} (h : lex src = .ok ts) :
    collectAdglComments src = skipped src := by
  have hwithin : ∀ n cs ts, cs.length < n → lexWithin n cs = .ok ts →
      collectComments .code cs = skippedWithin n cs := by
    intro n
    induction n with
    | zero => exact fun _ _ hn => absurd hn (Nat.not_lt_zero _)
    | succ n ih =>
        intro cs ts hn h
        unfold lexWithin at h
        unfold skippedWithin
        cases hskip : skipWsAndComments .blank cs with
        | error e =>
            rw [hskip] at h
            cases h
        | ok r =>
            have hlength := (skip_suffix hskip).length_le
            obtain ⟨hcollect, hopen⟩ := skip_collect hskip
            rw [hskip] at h
            obtain ⟨comments, _ | ⟨c, rest⟩⟩ := r
            · exact hcollect.trans (List.append_nil _)
            · cases htoken : nextToken (c :: rest) with
              | error e =>
                  simp only [htoken] at h
                  cases h
              | ok r' =>
                  have hrest := (nextToken_suffix htoken).length_le
                  simp only [htoken] at h ⊢
                  obtain ⟨ts', hts', rfl⟩ := map_eq_ok h
                  rw [List.length_cons] at hlength
                  have hmore := ih r'.2 ts' (by omega) hts'
                  refine hcollect.trans ?_
                  rw [nextToken_collect hopen htoken, hmore]
  exact hwithin _ src ts (Nat.lt_succ_self _) h

/-- What looks like a comment in a string is none, and a block comment may go over lines. -/
theorem line_comment_skipped :
    let src := "\"//\\\"/*\" a/* b\n */ 5// c".toList
    collectAdglComments src = skipped src ∧
      collectAdglComments src = ["/* b\n */".toList, "// c".toList] :=
  ⟨@collectAdglComments_skipped [.string "//\"/*", .ident "a", .int 5] _ (by decide +kernel),
    by decide +kernel⟩

end Adgl
