import NFdl.Lib.EditDistance
import NFdl.Lib.Text

/-!
# Suggestions for misspelt words

Where the parser finds another word than the one it expects, it suggests a candidate at an
edit distance of one or two. The distance is computed row by row.
-/

namespace Adgl

open EditDistance

/-! ### The distance -/

/-- The rest of the row of a longer prefix of the first word, from the row before it and from
the distance on the left. -/
def nextRow (ca : Char) : List Char → List ℕ → ℕ → List ℕ
  | cb :: bs, diagonal :: above :: prev, left =>
      let d := min (min (above + 1) (left + 1)) (diagonal + if ca = cb then 0 else 1)
      d :: nextRow ca bs (above :: prev) d
  | _, _, _ => []

/-- The row of the whole first word, from the row of its first `i` characters. -/
def rows (b : List Char) : ℕ → List ℕ → List Char → List ℕ
  | _, prev, [] => prev
  | i, prev, ca :: as => rows b (i + 1) ((i + 1) :: nextRow ca b prev (i + 1)) as

def levenshtein (a b : List Char) : ℕ :=
  if a = b then 0
  else if a = [] then b.length
  else if b = [] then a.length
  else (rows b 0 (List.range' 0 (b.length + 1)) a).getLast?.getD 0

example : levenshtein "evidnece".toList "evidence".toList = 2 := by decide +kernel

/-! ### The suggestion -/

/-- A candidate with a distance takes the place of the best one so far. -/
def better (cand : String) (d : ℕ) : Option (String × ℕ) → Bool
  | none => true
  | some (prev, prevD) => d < prevD || (d = prevD && cand.utf8ByteSize < prev.utf8ByteSize)

def consider (found : List Char) (best : Option (String × ℕ)) (cand : String) :
    Option (String × ℕ) :=
  let d := levenshtein found cand.toList
  if d = 0 ∨ d > 2 then best
  else if better cand d best then some (cand, d)
  else best

def suggestNearMiss (found : String) (candidates : List String) : Option String :=
  let found := Text.trim found.toList
  if found = [] ∨ found = "end of input".toList then none
  else (candidates.foldl (consider found) none).map Prod.fst

def helpDidYouMean (candidate : String) : String := "did you mean `" ++ candidate ++ "`?"

/-! ### The distance is the least number of edits -/

section Distance

variable {ca : Char} {as bs done cs : List Char} {prev : List ℕ} {left : ℕ}

theorem nextRow_isRow (hprev : IsRow as done bs prev) (hleft : IsDistance (as ++ [ca]) done left) :
    IsRow (as ++ [ca]) done bs (left :: nextRow ca bs prev left) := by
  induction bs generalizing done prev left with
  | nil => exact ⟨left, by simp only [nextRow], hleft⟩
  | cons cb bs ih =>
      obtain ⟨diagonal, more, rfl, hdiagonal, hmore⟩ := hprev
      obtain ⟨above, prev, rfl, habove⟩ :
          ∃ above prev, more = above :: prev ∧ IsDistance as (done ++ [cb]) above := by
        cases bs with
        | nil =>
            obtain ⟨above, rfl, habove⟩ := hmore
            exact ⟨above, [], rfl, habove⟩
        | cons b bs =>
            obtain ⟨above, prev, rfl, habove, -⟩ := hmore
            exact ⟨above, prev, rfl, habove⟩
      have hd := hdiagonal.concat habove hleft
      exact ⟨left, _, rfl, hleft, ih hmore hd⟩

theorem rows_isRow (hprev : IsRow as [] bs prev) :
    IsRow (as ++ cs) [] bs (rows bs as.length prev cs) := by
  induction cs generalizing as prev with
  | nil => exact (List.append_nil as).symm ▸ hprev
  | cons ca cs ih =>
      have hleft : IsDistance (as ++ [ca]) [] (as.length + 1) := by
        have h := isDistance_nil_right (as ++ [ca])
        rwa [List.length_append] at h
      have hrest := ih (nextRow_isRow hprev hleft)
      rw [List.length_append] at hrest
      rw [List.append_cons]
      exact hrest

theorem isDistance_levenshtein (a b : List Char) : IsDistance a b (levenshtein a b) := by
  unfold levenshtein
  split
  · rename_i heq
    subst heq
    exact isDistance_self a
  · split
    · rename_i hnil
      subst hnil
      exact isDistance_nil_left b
    · split
      · rename_i hnil
        subst hnil
        exact isDistance_nil_right a
      · have hrow : IsRow ([] ++ a) [] b (rows b 0 (List.range' 0 (b.length + 1)) a) :=
          rows_isRow (isRow_nil [] b)
        obtain ⟨n, hlast, hn⟩ := hrow.last
        rw [hlast]
        exact hn

end Distance

/-! ### The suggestion is a nearest candidate -/

section Suggestion

variable {found : List Char} {cand c : String} {candidates : List String}
variable {best : Option (String × ℕ)} {d d' : ℕ}

/-- A candidate with one or two edits. -/
def IsNear (found : List Char) (cand : String) (d : ℕ) : Prop :=
  IsDistance found cand.toList d ∧ 0 < d ∧ d ≤ 2

/-- A near candidate that no other one is nearer than, nor as near and shorter. -/
structure Nearest (found : List Char) (candidates : List String) (c : String) (d : ℕ) : Prop where
  mem : c ∈ candidates
  near : IsNear found c d
  least : ∀ c' ∈ candidates, ∀ d', IsNear found c' d' →
    d < d' ∨ d = d' ∧ c.utf8ByteSize ≤ c'.utf8ByteSize

/-- The best candidate so far is a nearest one, and there is none only if none is near. -/
def BestOf (found : List Char) (candidates : List String) : Option (String × ℕ) → Prop
  | none => ∀ c ∈ candidates, ∀ d, ¬ IsNear found c d
  | some (c, d) => Nearest found candidates c d

theorem isNear_levenshtein (h : IsNear found cand d) : levenshtein found cand.toList = d :=
  (isDistance_levenshtein found cand.toList).unique h.1

theorem BestOf.skip (h : BestOf found candidates best) (hfar : ∀ d, ¬ IsNear found cand d) :
    BestOf found (candidates ++ [cand]) best := by
  have hmem : ∀ {c' d'}, c' ∈ candidates ++ [cand] → IsNear found c' d' → c' ∈ candidates := by
    intro c' d' hc' hnear
    obtain hc' | hc' := List.mem_append.mp hc'
    · exact hc'
    · rw [List.mem_singleton.mp hc'] at hnear
      exact absurd hnear (hfar d')
  cases best with
  | none => exact fun c' hc' d' hnear => h c' (hmem hc' hnear) d' hnear
  | some b =>
      obtain ⟨hb, hnear, hleast⟩ := h
      exact ⟨List.mem_append_left _ hb, hnear,
        fun c' hc' d' hnear' => hleast c' (hmem hc' hnear') d' hnear'⟩

theorem BestOf.keep (h : BestOf found candidates (some (c, d))) (hnear : IsNear found cand d')
    (hworse : d < d' ∨ d = d' ∧ c.utf8ByteSize ≤ cand.utf8ByteSize) :
    BestOf found (candidates ++ [cand]) (some (c, d)) := by
  obtain ⟨hc, hnearC, hleast⟩ := h
  refine ⟨List.mem_append_left _ hc, hnearC, fun c' hc' e he => ?_⟩
  obtain hc' | hc' := List.mem_append.mp hc'
  · exact hleast c' hc' e he
  · rw [List.mem_singleton.mp hc'] at he ⊢
    rwa [he.1.unique hnear.1]

theorem BestOf.replace (h : BestOf found candidates best) (hnear : IsNear found cand d)
    (hbetter : better cand d best = true) :
    BestOf found (candidates ++ [cand]) (some (cand, d)) := by
  refine ⟨List.mem_append_right _ (List.mem_singleton_self _), hnear, fun c' hc' d' hnear' => ?_⟩
  obtain hc' | hc' := List.mem_append.mp hc'
  · cases best with
    | none => exact absurd hnear' (h c' hc' d')
    | some b =>
        have hleast := h.least c' hc' d' hnear'
        simp only [better, Bool.or_eq_true, Bool.and_eq_true, decide_eq_true_eq] at hbetter
        omega
  · rw [List.mem_singleton.mp hc'] at hnear' ⊢
    exact .inr ⟨hnear.1.unique hnear'.1, Nat.le_refl _⟩

theorem BestOf.consider (h : BestOf found candidates best) (cand : String) :
    BestOf found (candidates ++ [cand]) (consider found best cand) := by
  unfold Adgl.consider
  dsimp only
  split
  · rename_i hfar
    refine h.skip fun d hd => ?_
    obtain ⟨-, hpos, hle⟩ := id hd
    rw [isNear_levenshtein hd] at hfar
    omega
  · rename_i hnear
    have hnear : IsNear found cand (levenshtein found cand.toList) :=
      ⟨isDistance_levenshtein _ _, by omega, by omega⟩
    split
    · rename_i hbetter
      exact h.replace hnear hbetter
    · rename_i hbetter
      cases best with
      | none => exact absurd rfl hbetter
      | some b =>
          refine h.keep hnear ?_
          simp only [better, Bool.or_eq_true, Bool.and_eq_true, decide_eq_true_eq] at hbetter
          omega

theorem bestOf_foldl (h : BestOf found candidates best) (more : List String) :
    BestOf found (candidates ++ more) (more.foldl (Adgl.consider found) best) := by
  induction more generalizing candidates best with
  | nil => exact (List.append_nil candidates).symm ▸ h
  | cons cand more ih =>
      rw [List.append_cons]
      exact ih (h.consider cand)

/-- The number computed for two words is the least number of edits between them. There is a
suggestion exactly when some candidate is one or two edits from the word that was found, the blank
word and the end of the input apart, and it is a nearest one, the shortest among them. -/
theorem suggestNearMiss_nearest (found : String) (candidates : List String) :
    (∀ a b : List Char, IsDistance a b (levenshtein a b)) ∧
    (∀ c, suggestNearMiss found candidates = some c →
        ∃ d, Nearest (Text.trim found.toList) candidates c d) ∧
      (suggestNearMiss found candidates = none ↔
        Text.trim found.toList = [] ∨ Text.trim found.toList = "end of input".toList ∨
          ∀ c ∈ candidates, ∀ d, ¬ IsNear (Text.trim found.toList) c d) := by
  have hnone : BestOf (Text.trim found.toList) [] none := fun _ => nofun
  have hbest := bestOf_foldl hnone candidates
  rw [List.nil_append] at hbest
  refine ⟨isDistance_levenshtein, ?_⟩
  unfold suggestNearMiss
  dsimp only
  split
  · rename_i hsilent
    rw [← or_assoc]
    exact ⟨nofun, fun _ => .inl hsilent, fun _ => rfl⟩
  · rename_i hword
    rw [not_or] at hword
    rw [or_iff_right hword.1, or_iff_right hword.2]
    cases hfold : candidates.foldl (consider (Text.trim found.toList)) none with
    | none =>
        rw [hfold] at hbest
        exact ⟨nofun, fun _ => hbest, fun _ => rfl⟩
    | some b =>
        rw [hfold] at hbest
        refine ⟨?_, nofun, fun h => absurd hbest.near (h b.1 hbest.mem b.2)⟩
        rintro _ ⟨⟩
        exact ⟨b.2, hbest⟩

end Suggestion

end Adgl
