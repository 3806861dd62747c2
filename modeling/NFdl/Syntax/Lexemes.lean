import NFdl.Lib.Text
import NFdl.Syntax.Lexer

/-!
# Texts of tokens

What the lexer gives for a text that is put together from words, numbers, strings and
punctuation, in front of any text that does not continue the last token.
-/

namespace NFdl.Lexer

open Text (takeWhile_stop)

variable {c : Char} {cs more rest text : List Char} {ts : List Token}

/-- The text does not continue a word or a number. -/
def Breaks (rest : List Char) : Prop := ∀ c, rest.head? = some c → isIdentPart c = false

theorem breaks_nil : Breaks [] := nofun

theorem breaks_cons (h : isIdentPart c = false) : Breaks (c :: rest) := by
  intro d hd
  cases hd
  exact h

/-! ### Words -/

/-- The characters of a word. -/
def IsWord (cs : List Char) : Prop :=
  ∃ c more, cs = c :: more ∧ isIdentStart c = true ∧ ∀ d ∈ more, isIdentPart d = true

/-- A word that is not a keyword. -/
def IsIdent (s : String) : Prop := IsWord s.toList ∧ word s.toList = .ident s

theorem isIdentStart_plain (h : isIdentStart c = true) :
    ¬ (c = ' ' ∨ c = '\t' ∨ c = '\n' ∨ c = '\r') ∧ c ≠ '/' := by
  refine ⟨?_, ?_⟩
  · rintro (rfl | rfl | rfl | rfl) <;> exact absurd h (by decide)
  · rintro rfl
    exact absurd h (by decide)

theorem tokens_word (h : IsWord cs) (hrest : Breaks rest) :
    tokens (cs ++ rest) = word cs :: tokens rest := by
  obtain ⟨c, more, rfl, hstart, hmore⟩ := h
  obtain ⟨hblank, hslash⟩ := isIdentStart_plain hstart
  rw [List.cons_append, tokens_cons hblank fun h => absurd h hslash]
  unfold token
  rw [if_pos hstart]
  dsimp only
  rw [takeWhile_stop hmore hrest, List.drop_left]

/-! ### Numbers -/

theorem toDigit_ten (h : c.isDigit = true) : toDigit 10 c = some (c.toNat - '0'.toNat) := by
  have hle : c.toNat ≤ 57 := (Char.isDigit_iff_toNat.mp h).2
  unfold toDigit
  simp only [h, if_true]
  rw [if_pos]
  change c.toNat - 48 < 10
  omega

theorem toDigit_ten_isSome (h : (toDigit 10 c).isSome = true) : c.isDigit = true := by
  by_contra hdigit
  unfold toDigit at h
  dsimp only at h
  rw [if_neg hdigit, if_neg] at h
  · cases h
  · split
    · omega
    · split <;> omega

theorem isDigit_identPart (h : c.isDigit = true) : isIdentPart c = true := by
  unfold isIdentPart Char.isAlphanum
  rw [h, Bool.or_true, Bool.true_or]

theorem foldl_digits (cs : List Char) (hcs : ∀ c ∈ cs, c.isDigit = true) (v : ℕ) :
    cs.foldl (fun v c => 10 * v + (toDigit 10 c).getD 0) v = Nat.ofDigitChars 10 cs v := by
  induction cs generalizing v with
  | nil => rfl
  | cons c cs ih =>
      rw [List.foldl_cons, Nat.ofDigitChars_cons, ih fun d hd => hcs d (List.mem_cons_of_mem _ hd),
        toDigit_ten (hcs c (List.mem_cons_self ..))]
      rfl

theorem digits_ten {v : Int64} (hv : 0 ≤ v.toInt) (hcs : Text.decimal v.toInt = c :: more)
    (hrest : Breaks rest) : digits 10 [c] (more ++ rest) = (.int v, rest) := by
  obtain ⟨n, hn⟩ := Int.eq_ofNat_of_zero_le hv
  have hlt : n < 2 ^ 63 := by
    have hmax := v.toInt_lt
    omega
  have htext : Nat.toDigits 10 n = c :: more := by
    rw [← hcs, hn]
    rfl
  have hdigits : ∀ d ∈ c :: more, d.isDigit = true :=
    fun d hd => Nat.isDigit_of_mem_toDigits (by decide) (by decide) (htext ▸ hd)
  have hfilter : ([c] ++ more).filter (fun d => decide (d ≠ '_')) = c :: more := by
    refine List.filter_eq_self.mpr fun d hd => decide_eq_true ?_
    rintro rfl
    exact absurd (hdigits _ hd) (by decide)
  have hvalue : (c :: more).foldl (fun v c => 10 * v + (toDigit 10 c).getD 0) 0 = n := by
    rw [foldl_digits _ hdigits, ← htext, Nat.ofDigitChars_ten_toDigits]
  have hmore : (more ++ rest).takeWhile (fun c => (toDigit 10 c).isSome || decide (c = '_')) =
      more := by
    refine takeWhile_stop (fun d hd => ?_) fun d hd => ?_
    · rw [toDigit_ten (hdigits d (List.mem_cons_of_mem _ hd))]
      rfl
    · have hpart := hrest d hd
      rw [Bool.or_eq_false_iff]
      refine ⟨?_, decide_eq_false ?_⟩
      · by_contra hsome
        rw [isDigit_identPart (toDigit_ten_isSome (Bool.not_eq_false _ ▸ hsome))] at hpart
        cases hpart
      · rintro rfl
        cases hpart
  have hint : Int64.ofNat n = v := by
    apply Int64.toInt_inj.mp
    rw [Int64.toInt_ofNat_of_lt hlt, hn]
  unfold digits
  dsimp only
  rw [hmore, List.drop_left]
  unfold i64FromStrRadix
  dsimp only
  rw [hfilter, hvalue, if_pos ⟨List.cons_ne_nil _ _, hlt⟩, hint]

theorem number_ten (hrest : ∀ d, rest.head? = some d → d.isDigit = true ∨ isIdentPart d = false) :
    number c rest = digits 10 [c] rest := by
  unfold number
  split
  case h_7 => rfl
  all_goals
    obtain h | h := hrest _ rfl
    · exact absurd h (by decide)
    · exact absurd h (by decide)

theorem isIdentStart_toNat (h : isIdentStart c = true) : 65 ≤ c.toNat := by
  unfold isIdentStart Char.isAlpha Char.isUpper Char.isLower at h
  simp only [Bool.or_eq_true, Bool.and_eq_true, decide_eq_true_eq, ge_iff_le,
    UInt32.le_iff_toNat_le] at h
  change ((65 ≤ c.toNat ∧ c.toNat ≤ 90) ∨ (97 ≤ c.toNat ∧ c.toNat ≤ 122)) ∨ _ at h
  obtain (h | h) | rfl := h
  · exact h.1
  · omega
  · decide

theorem isDigit_plain (h : c.isDigit = true) :
    ¬ (c = ' ' ∨ c = '\t' ∨ c = '\n' ∨ c = '\r') ∧ c ≠ '/' ∧ isIdentStart c = false := by
  refine ⟨?_, ?_, ?_⟩
  · rintro (rfl | rfl | rfl | rfl) <;> exact absurd h (by decide)
  · rintro rfl
    exact absurd h (by decide)
  · by_contra hstart
    have hletter := isIdentStart_toNat ((Bool.not_eq_false _).mp hstart)
    have hdigit : c.toNat ≤ 57 := (Char.isDigit_iff_toNat.mp h).2
    omega

theorem tokens_decimal {v : Int64} (hv : 0 ≤ v.toInt) (hrest : Breaks rest) :
    tokens (Text.decimal v.toInt ++ rest) = .int v :: tokens rest := by
  obtain ⟨n, hn⟩ := Int.eq_ofNat_of_zero_le hv
  have htext : Text.decimal v.toInt = Nat.toDigits 10 n := by
    rw [hn]
    rfl
  obtain ⟨c, more, hcs⟩ := List.exists_cons_of_ne_nil (Nat.toDigits_ne_nil : Nat.toDigits 10 n ≠ [])
  have hdigits : ∀ d ∈ c :: more, d.isDigit = true :=
    fun d hd => Nat.isDigit_of_mem_toDigits (by decide) (by decide) (hcs ▸ hd)
  obtain ⟨hblank, hslash, hstart⟩ := isDigit_plain (hdigits c (List.mem_cons_self ..))
  rw [htext, hcs, List.cons_append, tokens_cons hblank fun h => absurd h hslash]
  have htoken : token c (more ++ rest) = (.int v, rest) := by
    unfold token
    rw [if_neg (by rw [hstart]; exact Bool.false_ne_true),
      if_pos (hdigits c (List.mem_cons_self ..)), number_ten]
    · exact digits_ten hv (htext.trans hcs) hrest
    · intro d hd
      cases more with
      | nil => exact .inr (hrest d hd)
      | cons e more =>
          cases hd
          exact .inl (hdigits d (by simp))
  rw [htoken]

/-! ### Strings -/

theorem tokens_string (h : '"' ∉ text) :
    tokens ('"' :: text ++ '"' :: rest) = .string (.ofList text) :: tokens rest := by
  have htext : (text ++ '"' :: rest).takeWhile (fun c => decide (c ≠ '"')) = text := by
    refine takeWhile_stop (fun d hd => decide_eq_true ?_) fun d hd => ?_
    · rintro rfl
      exact h hd
    · cases hd
      rfl
  have htoken : token '"' (text ++ '"' :: rest) = (.string (.ofList text), rest) := by
    unfold token
    rw [if_neg (by decide), if_neg (by decide), if_pos rfl]
    dsimp only
    rw [htext]
    rw [List.append_cons text '"' rest, List.drop_left' (by simp)]
  have hfirst := @tokens_cons '"' (text ++ '"' :: rest) (by decide) fun h => absurd h (by decide)
  rw [List.cons_append, hfirst, htoken]

/-! ### Texts -/

/-- The tokens of a text in front of any text that does not continue it. -/
def Lexes (cs : List Char) (ts : List Token) : Prop :=
  ∀ rest, Breaks rest → tokens (cs ++ rest) = ts ++ tokens rest

namespace Lexes

variable {cs' : List Char} {ts' : List Token}

theorem nil : Lexes [] [] := fun _ _ => rfl

theorem word (h : IsIdent s) : Lexes s.toList [.ident s] := by
  intro rest hrest
  rw [tokens_word h.1 hrest, h.2]
  rfl

theorem decimal {v : Int64} (hv : 0 ≤ v.toInt) : Lexes (Text.decimal v.toInt) [.int v] :=
  fun _ hrest => tokens_decimal hv hrest

theorem string (h : '"' ∉ text) : Lexes ('"' :: text ++ ['"']) [.string (.ofList text)] := by
  intro rest _
  rw [List.append_assoc]
  exact tokens_string h

/-- A text that does not continue the one in front of it. -/
theorem append (h : Lexes cs ts) (h' : Lexes cs' ts') (hbreaks : ∀ rest, Breaks rest → Breaks (cs' ++ rest)) :
    Lexes (cs ++ cs') (ts ++ ts') := by
  intro rest hrest
  rw [List.append_assoc, h _ (hbreaks rest hrest), h' rest hrest, List.append_assoc]

theorem space (h : Lexes cs ts) : Lexes (' ' :: cs) ts := by
  intro rest hrest
  rw [List.cons_append, tokens_space]
  exact h rest hrest

end Lexes

/-! ### The tokens of any text -/

/-- What the lexer makes of names, numbers and strings. There is no token of a plus. -/
def Lexed : Token → Prop
  | .ident s => IsIdent s
  | .int v => 0 ≤ v.toInt
  | .string s => '"' ∉ s.toList
  | .plus => False
  | _ => True

theorem word_ident {s : String} (h : word cs = .ident s) : s = String.ofList cs := by
  unfold word at h
  split at h <;> cases h
  rfl

theorem word_lexed (h : IsWord cs) : Lexed (word cs) := by
  have hident : ∀ s, word cs = .ident s → IsIdent s := by
    intro s hs
    have hcs : s.toList = cs := by
      rw [word_ident hs, String.toList_ofList]
    unfold IsIdent
    rw [hcs]
    exact ⟨h, hs⟩
  cases hw : word cs with
  | ident s => exact hident s hw
  | int v =>
      unfold word at hw
      split at hw <;> cases hw
  | string s =>
      unfold word at hw
      split at hw <;> cases hw
  | plus =>
      unfold word at hw
      split at hw <;> cases hw
  | _ => trivial

theorem digits_lexed (radix : ℕ) (start rest : List Char) : Lexed (digits radix start rest).1 := by
  unfold digits
  dsimp only
  split
  · rename_i v hv
    unfold i64FromStrRadix at hv
    dsimp only at hv
    split at hv
    · rename_i hvalue
      cases hv
      change 0 ≤ Int64.toInt _
      rw [Int64.toInt_ofNat_of_lt hvalue.2]
      exact Int.natCast_nonneg _
    · cases hv
  · trivial

theorem token_lexed (c : Char) (rest : List Char) : Lexed (token c rest).1 := by
  unfold token
  split
  · rename_i hstart
    refine word_lexed ⟨c, _, rfl, hstart, fun d hd => ?_⟩
    exact List.mem_takeWhile_imp hd
  · split
    · unfold number
      split <;> exact digits_lexed _ _ _
    · split
      · intro hmem
        rw [String.toList_ofList] at hmem
        have hne := List.mem_takeWhile_imp hmem
        exact absurd rfl (of_decide_eq_true hne)
      · unfold punctuation
        split <;> trivial

theorem tokens_lexed (cs : List Char) : ∀ t ∈ tokens cs, Lexed t := by
  have hwithin : ∀ n cs, ∀ t ∈ tokensWithin n cs, Lexed t := by
    intro n
    induction n with
    | zero => exact fun _ => nofun
    | succ n ih =>
        intro cs t ht
        unfold tokensWithin at ht
        split at ht
        · cases ht
        · rename_i c rest _
          obtain rfl | ht := List.mem_cons.mp ht
          · exact token_lexed c rest
          · exact ih _ t ht
  exact hwithin _ cs

end NFdl.Lexer
