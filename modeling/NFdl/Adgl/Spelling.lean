import NFdl.Adgl.Format

/-!
# Texts that spell tokens

A text is put together from pieces, words, numbers, strings and operators. The lexer gives
the tokens of the pieces in front of any text that does not continue the last one, and the
formatter finds no comment in it.
-/

namespace Adgl

open Lexer Fmt

variable {cs cs' rest : List Char} {ts ts' : List Token} {o o' : Bool} {n : ℕ}

/-- A text that does not continue a word or a number in front of it. -/
def breaks (cs : List Char) : Bool := cs.head?.any fun c => !isIdentContinue c

/-- A text spells tokens. It is open where a word or a number at its end could go on. -/
inductive Spells : Bool → List Char → List Token → Prop where
  | nil : Spells false [] []
  | piece {cs : List Char} {ts : List Token} (tokens : lex cs = .ok ts)
      (plain : cs.dropLast.all isPlain = true) (ends : cs.getLast?.any isEnd = true) :
      Spells false cs ts
  | blanks (n : ℕ) : Spells false (List.replicate n ' ') []
  | word {s : String} (h : IsWord s) : Spells true s.toList [word s]
  | number {n : ℕ} {unit : Option TimeUnit} (h : n < 2 ^ 63) :
      Spells true (decimalLiteral n unit).text
        [numberToken ((decimalLiteral n unit).token (.ofNat n))]
  | string (s : String) : Spells false (emitStringLit s) [.string s]
  | sign {c : Char} {t : Token} (h : c = '+' ∧ t = .plus ∨ c = '-' ∧ t = .minus) :
      Spells false [c] [t]
  | slash : Spells false ['/', ' '] [.slash]
  | bang {o : Bool} {c : Char} {cs : List Char} {ts : List Token} (hc : c ≠ '=')
      (h : Spells o (c :: cs) ts) : Spells o ('!' :: c :: cs) (.bang :: ts)
  | weaken {cs : List Char} {ts : List Token} (h : Spells false cs ts) : Spells true cs ts
  | join {o o' : Bool} {cs cs' : List Char} {ts ts' : List Token} (h : Spells o cs ts)
      (h' : Spells o' cs' ts') (seam : (!o || breaks cs') = true) :
      Spells o' (cs ++ cs') (ts ++ ts')

theorem Spells.append (h : Spells false cs ts) (h' : Spells o cs' ts') :
    Spells o (cs ++ cs') (ts ++ ts') :=
  .join h h' rfl

/-- A text behind one that it ends. -/
theorem Spells.before (h : Spells o cs ts) (h' : Spells o' cs' ts') (seam : breaks cs' = true) :
    Spells o' (cs ++ cs') (ts ++ ts') :=
  .join h h' (Bool.or_eq_true_iff.mpr (.inr seam))

example : Spells false ": event(".toList [.colon, .kw .event, .lParen] := .piece rfl rfl rfl

/-! ### Tokens -/

theorem breaks_append (h : breaks cs = true) (rest : List Char) : Breaks (cs ++ rest) := by
  obtain ⟨c, hc, hbreak⟩ := (Option.any_eq_true _ _).mp h
  obtain ⟨more, rfl⟩ := List.head?_eq_some_iff.mp hc
  exact breaks_cons ((Bool.not_eq_true' _).mp hbreak)

theorem lex_blanks (n : ℕ) (rest : List Char) : lex (List.replicate n ' ' ++ rest) = lex rest := by
  induction n with
  | zero => rfl
  | succ n ih =>
      rw [List.replicate_succ, List.cons_append, lex_blank (by decide), ih]

theorem lex_sign {c : Char} {t : Token} (h : c = '+' ∧ t = .plus ∨ c = '-' ∧ t = .minus)
    (rest : List Char) : lex (c :: rest) = behind [t] (lex rest) := by
  obtain ⟨rfl, rfl⟩ | ⟨rfl, rfl⟩ := h
  · exact lex_cons (by decide) (fun h => absurd h (by decide))
      (nextToken_single (fun _ => by unfold double; split <;> first | rfl | contradiction) rfl _)
  · exact lex_cons (by decide) (fun h => absurd h (by decide))
      (nextToken_single (fun _ => by unfold double; split <;> first | rfl | contradiction) rfl _)

theorem lex_slash (rest : List Char) : lex ('/' :: ' ' :: rest) = behind [.slash] (lex rest) := by
  have htoken : nextToken ('/' :: ' ' :: rest) = .ok (.slash, ' ' :: rest) := rfl
  rw [lex_cons (by decide) (fun _ => ⟨by simp, by simp⟩) htoken, lex_blank (by decide)]

theorem lex_bang {c : Char} (hc : c ≠ '=') (rest : List Char) :
    lex ('!' :: c :: rest) = behind [.bang] (lex (c :: rest)) := by
  refine lex_cons (by decide) (fun h => absurd h (by decide)) ?_
  have hdouble : double '!' c = none := by
    unfold double
    split <;> first | rfl | simp_all
  dsimp only [nextToken]
  rw [hdouble]
  rfl

theorem emitStringLit_append (s : String) (rest : List Char) :
    emitStringLit s ++ rest = '"' :: (escape s.toList ++ '"' :: rest) := by
  simp [emitStringLit]

/-- The tokens of a text in front of any text that does not continue it. -/
theorem Spells.lex_append (h : Spells o cs ts) (rest : List Char) (hrest : o = true → Breaks rest) :
    lex (cs ++ rest) = behind ts (lex rest) := by
  induction h generalizing rest with
  | nil => exact (behind_nil _).symm
  | @piece cs ts tokens plain ends =>
      obtain ⟨c, hlast, hc⟩ := (Option.any_eq_true _ _).mp ends
      have hcs := List.dropLast_append_getLast? c hlast
      rw [← hcs] at tokens ⊢
      rw [List.append_assoc]
      exact lex_piece plain hc tokens rest
  | blanks n => rw [lex_blanks, behind_nil]
  | word h => exact Lexes.word h rest (hrest rfl)
  | number h => exact Lexes.number h rest (hrest rfl)
  | string s =>
      rw [emitStringLit_append]
      exact lex_string s rest
  | sign h => exact lex_sign h rest
  | slash => exact lex_slash rest
  | @bang o c cs ts hc _ ih =>
      rw [List.cons_append, List.cons_append, lex_bang hc, ← List.cons_append, ih rest hrest,
        behind_behind]
      rfl
  | weaken _ ih => exact ih rest nofun
  | join _ _ seam ih ih' =>
      rw [List.append_assoc, ih _ ?_, ih' rest hrest, behind_behind]
      rintro rfl
      exact breaks_append seam rest

theorem Spells.lex_eq (h : Spells o cs ts) : lex cs = .ok ts := by
  have hcs := h.lex_append [] fun _ => breaks_nil
  rw [List.append_nil] at hcs
  rw [hcs]
  exact congrArg Except.ok (List.append_nil ts)

/-- The tokens of a text that is accepted. -/
def tokensOf (cs : List Char) : List Token := (lex cs).toOption.getD []

theorem Spells.tokensOf_eq (h : Spells o cs ts) : tokensOf cs = ts := by
  unfold tokensOf
  rw [h.lex_eq]
  rfl

/-! ### Comments -/

/-- What is neither a slash nor a quote is no part of a comment or a string. -/
theorem collect_plain (h : ∀ c ∈ cs, c ≠ '/' ∧ c ≠ '"') (rest : List Char) :
    collectComments .code (cs ++ rest) = collectComments .code rest := by
  induction cs with
  | nil => rfl
  | cons c cs ih =>
      obtain ⟨⟨hslash, hquote⟩, hcs⟩ := List.forall_mem_cons.mp h
      rw [List.cons_append, collectComments]
      · exact ih hcs
      · rintro more rfl
        exact fun _ => hslash rfl
      · rintro more rfl
        exact fun _ => hslash rfl
      · rintro rfl
        exact hquote rfl

theorem collect_string (cs rest : List Char) :
    collectComments .string (escape cs ++ '"' :: rest) = collectComments .code rest := by
  induction cs with
  | nil => rfl
  | cons c cs ih =>
      rw [escape_cons]
      split
      · rename_i hc
        obtain rfl | rfl := hc <;> exact ih
      · rename_i hc
        rw [not_or] at hc
        change collectComments .string (c :: (escape cs ++ '"' :: rest)) = _
        rw [collectComments]
        · exact ih
        · rintro _ _ rfl
          exact fun _ => hc.2 rfl
        · rintro rfl
          exact hc.1 rfl

theorem collect_class {p : Char → Bool} (hp : ∀ c, p c = true → isIdentContinue c = true)
    (h : ∀ c ∈ cs, p c = true) : ∀ c ∈ cs, c ≠ '/' ∧ c ≠ '"' := by
  intro c hc
  have hcontinue := hp c (h c hc)
  constructor
  · rintro rfl
    exact absurd hcontinue (by decide)
  · rintro rfl
    exact absurd hcontinue (by decide)

theorem unitText_continues (unit : Option TimeUnit) :
    (decimalLiteral n unit).unitText.all isIdentContinue = true := by
  cases unit with
  | none => rfl
  | some unit => cases unit <;> rfl

/-- There are no comments in a text that spells tokens. -/
theorem Spells.collect_append (h : Spells o cs ts) (rest : List Char) :
    collectComments .code (cs ++ rest) = collectComments .code rest := by
  induction h generalizing rest with
  | nil => rfl
  | @piece cs ts tokens plain ends =>
      refine collect_plain (fun c hc => ?_) rest
      obtain ⟨d, hlast, hd⟩ := (Option.any_eq_true _ _).mp ends
      rw [← List.dropLast_append_getLast? d hlast] at hc
      obtain hc | hc := List.mem_append.mp hc
      · have hplain := List.all_eq_true.mp plain c hc
        simp only [isPlain, Bool.and_eq_true, decide_eq_true_eq] at hplain
        exact hplain.1
      · rw [List.mem_singleton.mp hc]
        obtain ⟨-, -, -, -, -, -, -, hslash, -⟩ := isEnd_cases hd
        refine ⟨hslash, ?_⟩
        rintro rfl
        exact absurd hd (by decide)
  | blanks n =>
      refine collect_plain (fun c hc => ?_) rest
      rw [List.eq_of_mem_replicate hc]
      decide
  | word h => exact collect_plain (collect_class (fun _ => id) h.continues) rest
  | @number n unit h =>
      refine collect_plain (collect_class (fun _ => id) fun c hc => ?_) rest
      obtain hc | hc := List.mem_append.mp hc
      · exact inRun_continue ((decimalLiteral n unit).numeral.inBody c hc)
      · exact List.all_eq_true.mp (unitText_continues unit) c hc
  | string s =>
      rw [emitStringLit_append]
      exact collect_string s.toList rest
  | sign h =>
      obtain ⟨rfl, -⟩ | ⟨rfl, -⟩ := h <;> rfl
  | slash => rfl
  | @bang o c cs ts hc _ ih =>
      rw [← ih rest]
      rfl
  | weaken _ ih => exact ih rest
  | join _ _ _ ih ih' => rw [List.append_assoc, ih, ih']

end Adgl
