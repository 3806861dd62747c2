import NFdl.Adgl.Include

/-!
# Composition of includes

The files that a file includes make up a graph. When the paths of the directives are
read as they are written, loading a file ends; it fails on a cycle, and else gives the
header of the file, the rules of every other file that it reaches, each once and after the
files that it includes, and its own rules.
-/

namespace Adgl.Include

open Diag (Span)
open Text (byteLength map_eq_ok)

section Graph

variable {Path : Type} (fs : FileSystem Path) (parse : Parser)
variable (readAs : Char → List Char)

/-! ### The graph -/

/-- The directives of a file and the text after them. -/
def contents (f : Path) : Option (List IncludeDir × List Char) :=
  match fs.readToString f with
  | .error _ => none
  | .ok raw => (stripLeadingIncludes readAs raw (fs.display f)).toOption

/-- The file that a directive of a file stands for. -/
def target (f : Path) (dir : IncludeDir) : Option Path :=
  (fs.canonicalize (fs.join (fs.parent f) dir.path)).toOption

/-- A file includes another one. -/
def Includes (f g : Path) : Prop :=
  ∃ c, contents fs readAs f = some c ∧ ∃ dir ∈ c.1, target fs f dir = some g

abbrev Reaches : Path → Path → Prop := Relation.ReflTransGen (Includes fs readAs)

/-- The rules of a file as they are written where it is included. -/
def fileRules (f : Path) : List Char :=
  match contents fs readAs f with
  | none => []
  | some c => (rulesTextFromBody parse c.2).toOption.getD []

/-- A file can be read, its directives stand for files, and its rules can be parsed. -/
structure Loadable (f : Path) : Prop where
  readable : ∃ c, contents fs readAs f = some c ∧ (∀ dir ∈ c.1, ∃ g, target fs f dir = some g) ∧
    ∃ rules, rulesTextFromBody parse c.2 = .ok rules

end Graph

/-! ### Lines -/

/-- A text of whole lines. -/
def Lines (cs : List Char) : Prop := cs = [] ∨ cs.getLast? = some '\n'

theorem Lines.append {as bs : List Char} (ha : Lines as) (hb : Lines bs) : Lines (as ++ bs) := by
  obtain rfl | hb := hb
  · rwa [List.append_nil]
  · right
    rw [List.getLast?_append, hb]
    rfl

theorem Lines.flatten {texts : List (List Char)} (h : ∀ t ∈ texts, Lines t) :
    Lines texts.flatten := by
  induction texts with
  | nil => exact .inl rfl
  | cons t texts ih =>
      rw [List.flatten_cons]
      exact (h t (List.mem_cons_self ..)).append (ih fun u hu => h u (List.mem_cons_of_mem _ hu))

theorem glue_of_lines {cs : List Char} (h : Lines cs) : glue cs = cs := by
  unfold glue
  rw [if_neg]
  rintro ⟨hne, hlast⟩
  obtain h | h := h
  · exact hne h
  · exact hlast h

theorem rulesText_lines {parse : Parser} {body rules : List Char}
    (h : rulesTextFromBody parse body = .ok rules) : Lines rules := by
  unfold rulesTextFromBody at h
  split at h
  · cases h
  · rename_i ast _
    have hfold : ∀ (spans : List Span) (out : List Char), Lines out →
        spans.foldlM (fun out span =>
          if byteLength body < span.stop ∨ span.stop < span.start then
            (.error (.diags [.error "ADGL4003"
              "internal error: rule span out of bounds while expanding include" .unknown]) :
              Except Failure (List Char))
          else .ok (out ++ Text.trim (slice body span) ++ ['\n'])) out = .ok rules →
        Lines rules := by
      intro spans
      induction spans with
      | nil =>
          rintro out hout ⟨⟩
          exact hout
      | cons span spans ih =>
          intro out hout hrun
          rw [List.foldlM_cons] at hrun
          split at hrun
          · cases hrun
          · refine ih _ ?_ hrun
            right
            rw [List.getLast?_append]
            rfl
    exact hfold _ _ (.inl rfl) h

/-! ### Successful expansions -/

section Expansion

variable {Path : Type} {fs : FileSystem Path} {parse : Parser}
variable {t t' t'' : Traversal Path} {new more : List Path}

theorem readFile_eq_ok {readAs : Char → List Char} {path canon : Path} {span : Span}
    {c : List IncludeDir × List Char} :
    readFile fs readAs path canon span = .ok c ↔ contents fs readAs canon = some c := by
  unfold readFile contents
  cases fs.readToString canon with
  | error e => exact ⟨nofun, nofun⟩
  | ok raw =>
      change stripLeadingIncludes readAs raw (fs.display canon) = .ok c ↔
        (stripLeadingIncludes readAs raw (fs.display canon)).toOption = some c
      cases stripLeadingIncludes readAs raw (fs.display canon) with
      | error e => exact ⟨nofun, nofun⟩
      | ok d =>
          refine ⟨fun h => ?_, fun h => ?_⟩
          · cases h
            rfl
          · cases h
            rfl

theorem canonicalizeExisting_eq_ok {path canon : Path} {span : Span} :
    canonicalizeExisting fs path span = .ok canon ↔ fs.canonicalize path = .ok canon := by
  unfold canonicalizeExisting
  cases fs.canonicalize path with
  | error e => exact ⟨nofun, nofun⟩
  | ok c =>
      refine ⟨fun h => ?_, fun h => ?_⟩
      · cases h
        rfl
      · cases h
        rfl

theorem target_eq_some {f g : Path} {dir : IncludeDir} :
    target fs f dir = some g ↔ fs.canonicalize (fs.join (fs.parent f) dir.path) = .ok g := by
  unfold target
  cases fs.canonicalize (fs.join (fs.parent f) dir.path) with
  | error e => exact ⟨nofun, nofun⟩
  | ok c =>
      refine ⟨fun h => ?_, fun h => ?_⟩
      · cases h
        rfl
      · cases h
        rfl

/-- What an expansion does: new files are expanded in a post-order of the includes, none of
them is on the stack, and the stack is left as it was. -/
structure Expands (fs : FileSystem Path) (t t' : Traversal Path) (new : List Path) : Prop where
  stack : t'.stack = t.stack
  done : t'.expandedOnce = t.expandedOnce ++ new
  ordered : Postorder (Includes fs bytesAsChars) t.expandedOnce new
  nodup : new.Nodup
  fresh : ∀ f ∈ new, f ∉ t.expandedOnce ∧ f ∉ t.stack

namespace Expands

theorem refl (t : Traversal Path) : Expands fs t t [] where
  stack := rfl
  done := (List.append_nil _).symm
  ordered := .nil
  nodup := .nil
  fresh := fun _ h => absurd h List.not_mem_nil

theorem trans (h : Expands fs t t' new) (h' : Expands fs t' t'' more) :
    Expands fs t t'' (new ++ more) where
  stack := h'.stack.trans h.stack
  done := by rw [h'.done, h.done, List.append_assoc]
  ordered := h.ordered.append (h.done ▸ h'.ordered)
  nodup := by
    refine List.nodup_append.mpr ⟨h.nodup, h'.nodup, ?_⟩
    rintro f hf _ hf' rfl
    exact (h'.fresh f hf').1 (h.done ▸ List.mem_append_right _ hf)
  fresh := by
    intro f hf
    obtain hf | hf := List.mem_append.mp hf
    · exact h.fresh f hf
    · obtain ⟨hdone, hstack⟩ := h'.fresh f hf
      rw [h.done] at hdone
      exact ⟨fun hmem => hdone (List.mem_append_left _ hmem), h.stack ▸ hstack⟩

end Expands

/-- What the expansion of a file gives: its own text when it is new, and the rules of the
files in front of it, which can all be loaded. -/
structure Expanded (fs : FileSystem Path) (parse : Parser) (canon : Path) (t : Traversal Path)
    (x : ExpandedFile) (t' : Traversal Path) (front : List Path) : Prop where
  expands : Expands fs t t' (if x.emitOwnRules then front ++ [canon] else front)
  imported : x.importedRulesText = (front.map (fileRules fs parse bytesAsChars)).flatten
  reached : ∀ f ∈ front, Relation.TransGen (Includes fs bytesAsChars) canon f
  loadable : ∀ f ∈ front, Loadable fs parse bytesAsChars f
  done : canon ∈ t'.expandedOnce
  own : x.emitOwnRules = true → ∃ dirs, contents fs bytesAsChars canon = some (dirs, x.body) ∧
    ∀ dir ∈ dirs, ∃ g, target fs canon dir = some g
  old : x.emitOwnRules = false → front = []

/-- A way to expand files that keeps to this. -/
def Exact (fs : FileSystem Path) (parse : Parser)
    (expand : Path → Span → Traversal Path → Except Failure (ExpandedFile × Traversal Path)) :
    Prop :=
  ∀ path span t x t', expand path span t = .ok (x, t') →
    ∃ canon front, fs.canonicalize path = .ok canon ∧ Expanded fs parse canon t x t' front

theorem fileRules_of_contents {f : Path} {dirs : List IncludeDir} {body rules : List Char}
    {readAs : Char → List Char} (hcontents : contents fs readAs f = some (dirs, body))
    (hrules : rulesTextFromBody parse body = .ok rules) :
    fileRules fs parse readAs f = rules := by
  unfold fileRules
  rw [hcontents]
  change (rulesTextFromBody parse body).toOption.getD [] = rules
  rw [hrules]
  rfl

theorem fileRules_lines (readAs : Char → List Char) (f : Path) :
    Lines (fileRules fs parse readAs f) := by
  unfold fileRules
  split
  · exact .inl rfl
  · rename_i c _
    cases hrules : rulesTextFromBody parse c.2 with
    | error e => exact .inl rfl
    | ok rules => exact rulesText_lines hrules

theorem rules_lines (readAs : Char → List Char) (fs_ : List Path) :
    Lines (fs_.map (fileRules fs parse readAs)).flatten := by
  refine Lines.flatten fun t ht => ?_
  obtain ⟨f, -, rfl⟩ := List.mem_map.mp ht
  exact fileRules_lines readAs f

variable {expand : Path → Span → Traversal Path → Except Failure (ExpandedFile × Traversal Path)}

/-- One include of a file adds the rules of the files that were expanded for it. -/
theorem expandInclude_ok (hexpand : Exact fs parse expand) {canon : Path} {dir : IncludeDir}
    {acc acc' : List Char × Traversal Path} (hlines : Lines acc.1)
    (h : expandInclude fs parse expand (fs.parent canon) acc dir = .ok acc') :
    ∃ g new, target fs canon dir = some g ∧ Expands fs acc.2 acc'.2 new ∧
      acc'.1 = acc.1 ++ (new.map (fileRules fs parse bytesAsChars)).flatten ∧
      g ∈ acc'.2.expandedOnce ∧
      ∀ f ∈ new, Reaches fs bytesAsChars g f ∧ Loadable fs parse bytesAsChars f := by
  unfold expandInclude at h
  split at h
  · cases h
  · rename_i child t' hchild
    obtain ⟨g, front, hg, hx⟩ := hexpand _ _ _ _ _ hchild
    have hreach : ∀ f ∈ front, Reaches fs bytesAsChars g f ∧ Loadable fs parse bytesAsChars f :=
      fun f hf => ⟨(hx.reached f hf).to_reflTransGen, hx.loadable f hf⟩
    dsimp only at h
    split at h
    · rename_i hown
      obtain ⟨dirs, hcontents, htargets⟩ := hx.own hown
      split at h
      · cases h
      · rename_i rules hrules
        cases h
        have hrest : (((front ++ [g]).map (fileRules fs parse bytesAsChars)).flatten) =
            child.importedRulesText ++ rules := by
          rw [List.map_append, List.flatten_append, ← hx.imported]
          simp [fileRules_of_contents hcontents hrules]
        have hall : Lines (acc.1 ++ child.importedRulesText ++ rules) := by
          rw [List.append_assoc, ← hrest]
          exact hlines.append (rules_lines bytesAsChars _)
        refine ⟨g, front ++ [g], target_eq_some.mpr hg, ?_, ?_, hx.done, ?_⟩
        · have hexpands := hx.expands
          rwa [if_pos hown] at hexpands
        · rw [glue_of_lines hall, List.append_assoc, hrest]
        · intro f hf
          obtain hf | hf := List.mem_append.mp hf
          · exact hreach f hf
          · rw [List.mem_singleton.mp hf]
            exact ⟨.refl, ⟨_, hcontents, htargets, rules, hrules⟩⟩
    · rename_i hown
      cases h
      refine ⟨g, front, target_eq_some.mpr hg, ?_, by rw [hx.imported], hx.done, hreach⟩
      have hexpands := hx.expands
      rwa [if_neg hown] at hexpands

theorem expandIncludes_ok (hexpand : Exact fs parse expand) {canon : Path}
    {dirs : List IncludeDir} {acc acc' : List Char × Traversal Path} (hlines : Lines acc.1)
    (h : dirs.foldlM (expandInclude fs parse expand (fs.parent canon)) acc = .ok acc') :
    ∃ new, Expands fs acc.2 acc'.2 new ∧
      acc'.1 = acc.1 ++ (new.map (fileRules fs parse bytesAsChars)).flatten ∧
      (∀ dir ∈ dirs, ∃ g, target fs canon dir = some g ∧ g ∈ acc'.2.expandedOnce) ∧
      ∀ f ∈ new, Loadable fs parse bytesAsChars f ∧
        ∃ dir ∈ dirs, ∃ g, target fs canon dir = some g ∧ Reaches fs bytesAsChars g f := by
  induction dirs generalizing acc with
  | nil =>
      cases h
      exact ⟨[], .refl _, by simp, nofun, nofun⟩
  | cons dir dirs ih =>
      rw [List.foldlM_cons] at h
      obtain ⟨mid, hmid, h⟩ : ∃ mid,
          expandInclude fs parse expand (fs.parent canon) acc dir = .ok mid ∧
          dirs.foldlM (expandInclude fs parse expand (fs.parent canon)) mid = .ok acc' := by
        cases hfirst : expandInclude fs parse expand (fs.parent canon) acc dir with
        | error e =>
            rw [hfirst] at h
            cases h
        | ok mid =>
            rw [hfirst] at h
            exact ⟨mid, rfl, h⟩
      obtain ⟨g, new, hg, hnew, htext, hdone, hreach⟩ := expandInclude_ok hexpand hlines hmid
      have hmidLines : Lines mid.1 := by
        rw [htext]
        exact hlines.append (rules_lines bytesAsChars _)
      obtain ⟨more, hmore, hmoreText, hdones, hreaches⟩ := ih hmidLines h
      refine ⟨new ++ more, hnew.trans hmore, ?_, ?_, ?_⟩
      · rw [hmoreText, htext, List.map_append, List.flatten_append, List.append_assoc]
      · intro d hd
        obtain rfl | hd := List.mem_cons.mp hd
        · exact ⟨g, hg, hmore.done ▸ List.mem_append_left _ hdone⟩
        · exact hdones d hd
      · intro f hf
        obtain hf | hf := List.mem_append.mp hf
        · obtain ⟨hf, hloadable⟩ := hreach f hf
          exact ⟨hloadable, dir, List.mem_cons_self .., g, hg, hf⟩
        · obtain ⟨hloadable, d, hd, hrest⟩ := hreaches f hf
          exact ⟨hloadable, d, List.mem_cons_of_mem _ hd, hrest⟩

variable [DecidableEq Path]

/-- Every successful expansion is exact. The induction is on the depth. -/
theorem expandFile_exact (fs : FileSystem Path) (parse : Parser) (depth : ℕ) :
    Exact fs parse (expandFile fs parse depth) := by
  induction depth with
  | zero => nofun
  | succ depth ih =>
      intro path span t x t' h
      unfold expandFile at h
      split at h
      · cases h
      · rename_i canon hcanon
        have hcanon := canonicalizeExisting_eq_ok.mp hcanon
        split at h
        · cases h
        · rename_i hstack
          split at h
          · rename_i hdone
            cases h
            exact ⟨canon, [], hcanon, .refl _, rfl, nofun, nofun, hdone, nofun, fun _ => rfl⟩
          · rename_i hnew
            split at h
            · cases h
            · rename_i dirs body hread
              have hcontents := readFile_eq_ok.mp hread
              dsimp only at h
              split at h
              · cases h
              · rename_i imported after hfold
                cases h
                obtain ⟨front, hfront, htext, hdones, hreaches⟩ :=
                  expandIncludes_ok ih (.inl rfl) hfold
                refine ⟨canon, front, hcanon, ?_, htext, ?_, fun f hf => (hreaches f hf).1, ?_, ?_,
                  nofun⟩
                · rw [if_pos rfl]
                  refine ⟨?_, ?_, ?_, ?_, ?_⟩
                  · change after.stack.dropLast = t.stack
                    rw [hfront.stack, List.dropLast_concat]
                  · change after.expandedOnce ++ [canon] = _
                    rw [hfront.done, List.append_assoc]
                  · refine hfront.ordered.append (.singleton ?_)
                    rintro g ⟨c, hc, dir, hdir, hg⟩
                    obtain rfl := Option.some.inj (hcontents.symm.trans hc)
                    obtain ⟨g', hg', hmem⟩ := hdones dir hdir
                    obtain rfl := Option.some.inj (hg.symm.trans hg')
                    exact hfront.done ▸ hmem
                  · refine List.nodup_append.mpr ⟨hfront.nodup, List.nodup_singleton _, ?_⟩
                    rintro f hf _ hf' rfl
                    rw [List.mem_singleton.mp hf'] at hf
                    exact (hfront.fresh canon hf).2 (List.mem_append_right _ (List.mem_singleton_self _))
                  · intro f hf
                    obtain hf | hf := List.mem_append.mp hf
                    · obtain ⟨hdone, hin⟩ := hfront.fresh f hf
                      exact ⟨hdone, fun hmem => hin (List.mem_append_left _ hmem)⟩
                    · rw [List.mem_singleton.mp hf]
                      exact ⟨hnew, hstack⟩
                · intro f hf
                  obtain ⟨-, dir, hdir, g, hg, hreach⟩ := hreaches f hf
                  exact .head' ⟨_, hcontents, dir, hdir, hg⟩ hreach
                · exact List.mem_append_right _ (List.mem_singleton_self _)
                · refine fun _ => ⟨dirs, hcontents, fun dir hdir => ?_⟩
                  obtain ⟨g, hg, -⟩ := hdones dir hdir
                  exact ⟨g, hg⟩

end Expansion

/-! ### The scan of directives -/

theorem skipWsAndComments_suffix (scan : Scan) (cs : List Char) {rest : List Char}
    (h : skipWsAndComments scan cs = .ok rest) : rest <:+ cs := by
  fun_induction skipWsAndComments scan cs with
  | case1 rest' ih => exact (ih h).trans ⟨['/', '/'], rfl⟩
  | case2 rest' ih => exact (ih h).trans ⟨['/', '*'], rfl⟩
  | case3 c rest' _ _ _ ih => exact (ih h).trans (List.suffix_cons ..)
  | case4 =>
      cases h
      exact List.suffix_rfl
  | case5 =>
      cases h
      exact List.suffix_rfl
  | case6 c rest' ih => exact (ih h).trans (List.suffix_cons ..)
  | case7 =>
      cases h
      exact List.suffix_rfl
  | case8 start rest' ih => exact (ih h).trans ⟨['*', '/'], rfl⟩
  | case9 start c rest' _ ih => exact (ih h).trans (List.suffix_cons ..)
  | case10 => cases h

theorem literalRest_suffix (readAs : Char → List Char) (cs : List Char)
    {r : List Char × List Char} (h : literalRest readAs cs = .ok r) : r.2 <:+ cs := by
  fun_induction literalRest readAs cs generalizing r with
  | case1 rest =>
      cases h
      exact List.suffix_cons ..
  | case2 => cases h
  | case3 c rest ih =>
      obtain ⟨r', hr', rfl⟩ := map_eq_ok h
      exact (ih hr').trans ⟨['\\', c], rfl⟩
  | case4 => cases h
  | case5 c rest _ _ _ _ ih =>
      obtain ⟨r', hr', rfl⟩ := map_eq_ok h
      exact (ih hr').trans (List.suffix_cons ..)
  | case6 => cases h

theorem parseStringLit_suffix {readAs : Char → List Char} {src cs : List Char}
    {r : List Char × List Char} (h : parseStringLit readAs src cs = .ok r) : r.2 <:+ cs := by
  unfold parseStringLit at h
  split at h
  · split at h
    · rename_i hr
      cases h
      exact (literalRest_suffix readAs _ hr).trans (List.suffix_cons ..)
    · cases h
  · cases h

/-- The bound on the number of directives is never reached. -/
theorem leadingIncludes_bound (readAs : Char → List Char) (file : String) (src : List Char)
    (bound : ℕ) (cs : List Char) (includes : List IncludeDir) (h : cs.length < bound) :
    leadingIncludes readAs file src bound cs includes ≠ .error .tooDeep := by
  induction bound generalizing cs includes with
  | zero => exact absurd h (Nat.not_lt_zero _)
  | succ bound ih =>
      unfold leadingIncludes
      split
      · nofun
      · rename_i cs' hskip
        have hskipped := (skipWsAndComments_suffix _ _ hskip).length_le
        split
        · rename_i rest
          split
          · nofun
          · split
            · nofun
            · rename_i path next hlit
              have hnext := (parseStringLit_suffix hlit).length_le
              have hblank : ∀ cs : List Char, (skipWsOnly cs).length ≤ cs.length :=
                fun cs => (List.dropWhile_sublist _).length_le
              have hrest := hblank rest
              have hafter := hblank next
              dsimp only
              split
              · nofun
              · refine ih _ _ ?_
                simp only [List.length_cons] at hskipped
                dsimp only at hnext
                omega
        · nofun

theorem readFile_bound {Path : Type} (fs : FileSystem Path) (readAs : Char → List Char)
    (path canon : Path) (span : Span) : readFile fs readAs path canon span ≠ .error .tooDeep := by
  unfold readFile
  split
  · nofun
  · exact leadingIncludes_bound _ _ _ _ _ _ (Nat.lt_succ_self _)

theorem map_snd_map {α β γ ε : Type} (f : α → γ) (x : Except ε (α × β)) :
    (x.map fun r => (f r.1, r.2)).map Prod.snd = x.map Prod.snd := by
  cases x <;> rfl

/-- How characters are read does not matter for where a literal ends. -/
theorem literalRest_readAs (readAs readAs' : Char → List Char) (cs : List Char) :
    (literalRest readAs cs).map Prod.snd = (literalRest readAs' cs).map Prod.snd := by
  fun_induction literalRest readAs cs with
  | case1 rest => rfl
  | case2 => rfl
  | case3 c rest ih =>
      rw [literalRest, map_snd_map (escaped readAs c ++ ·), ih]
      exact (map_snd_map _ _).symm
  | case4 c rest hquote hlast hslash hbreak => simp [literalRest, hbreak]
  | case5 c rest hquote hlast hslash hbreak ih =>
      rw [literalRest, if_neg hbreak, map_snd_map (readAs c ++ ·), ih]
      · exact (map_snd_map _ _).symm
      all_goals assumption
  | case6 => rfl

theorem parseStringLit_readAs (readAs readAs' : Char → List Char) (src cs : List Char) :
    (parseStringLit readAs src cs).map Prod.snd = (parseStringLit readAs' src cs).map Prod.snd := by
  unfold parseStringLit
  split
  · rename_i rest
    have hrest := literalRest_readAs readAs readAs' rest
    revert hrest
    cases literalRest readAs rest with
    | error stop =>
        cases literalRest readAs' rest with
        | error stop' =>
            rintro ⟨⟩
            rfl
        | ok r' => rintro ⟨⟩
    | ok r =>
        cases literalRest readAs' rest with
        | error stop' => rintro ⟨⟩
        | ok r' =>
            intro hrest
            exact congrArg Except.ok (Except.ok.inj hrest)
  · rfl

/-- How characters are read does not matter for the text after the directives. -/
theorem leadingIncludes_readAs (readAs readAs' : Char → List Char) (file : String)
    (src : List Char) (bound : ℕ) (cs : List Char) (includes includes' : List IncludeDir) :
    (leadingIncludes readAs file src bound cs includes).map Prod.snd =
      (leadingIncludes readAs' file src bound cs includes').map Prod.snd := by
  induction bound generalizing cs includes includes' with
  | zero => rfl
  | succ bound ih =>
      unfold leadingIncludes
      cases skipWsAndComments .blank cs with
      | error start => rfl
      | ok cs' =>
          dsimp only
          split
          · rename_i rest
            split
            · rfl
            · have hlit := parseStringLit_readAs readAs readAs' src (skipWsOnly rest)
              revert hlit
              cases parseStringLit readAs src (skipWsOnly rest) with
              | error span =>
                  cases parseStringLit readAs' src (skipWsOnly rest) with
                  | error span' =>
                      rintro ⟨⟩
                      rfl
                  | ok r' => rintro ⟨⟩
              | ok r =>
                  cases parseStringLit readAs' src (skipWsOnly rest) with
                  | error span' => rintro ⟨⟩
                  | ok r' =>
                      obtain ⟨path, next⟩ := r
                      obtain ⟨path', next'⟩ := r'
                      rintro ⟨⟩
                      dsimp only
                      split
                      · rfl
                      · exact ih _ _ _
          · rfl

/-- Characters that are read alike give the same literal. -/
theorem literalRest_congr {readAs readAs' : Char → List Char} (cs : List Char)
    (h : ∀ c ∈ cs, readAs c = readAs' c) : literalRest readAs cs = literalRest readAs' cs := by
  fun_induction literalRest readAs cs with
  | case1 rest => rfl
  | case2 => rfl
  | case3 c rest ih =>
      have hc : escaped readAs c = escaped readAs' c := by
        unfold escaped
        split <;> first | rfl | exact h _ (by simp)
      rw [literalRest, hc, ih]
      intro d hd
      exact h d (List.mem_cons_of_mem _ (List.mem_cons_of_mem _ hd))
  | case4 c rest hquote hlast hslash hbreak => simp [literalRest, hbreak]
  | case5 c rest hquote hlast hslash hbreak ih =>
      rw [literalRest, if_neg hbreak, h c (List.mem_cons_self ..), ih]
      · exact fun d hd => h d (List.mem_cons_of_mem _ hd)
      all_goals assumption
  | case6 => rfl

theorem parseStringLit_congr {readAs readAs' : Char → List Char} (src cs : List Char)
    (h : ∀ c ∈ cs, readAs c = readAs' c) :
    parseStringLit readAs src cs = parseStringLit readAs' src cs := by
  unfold parseStringLit
  split
  · rw [literalRest_congr _ fun c hc => h c (List.mem_cons_of_mem _ hc)]
  · rfl

theorem leadingIncludes_congr {readAs readAs' : Char → List Char} (file : String)
    (src : List Char) (bound : ℕ) (cs : List Char) (includes : List IncludeDir)
    (h : ∀ c ∈ cs, readAs c = readAs' c) :
    leadingIncludes readAs file src bound cs includes =
      leadingIncludes readAs' file src bound cs includes := by
  induction bound generalizing cs includes with
  | zero => rfl
  | succ bound ih =>
      unfold leadingIncludes
      split
      · rfl
      · rename_i cs' hskip
        have hskipped := (skipWsAndComments_suffix _ _ hskip).subset
        split
        · rename_i rest
          have hrest : ∀ c ∈ skipWsOnly rest, readAs c = readAs' c := by
            intro c hc
            refine h c (hskipped ?_)
            exact List.mem_of_mem_drop (i := 7) ((List.dropWhile_suffix _).mem hc)
          rw [parseStringLit_congr src _ hrest]
          split
          · rfl
          · cases hlit : parseStringLit readAs' src (skipWsOnly rest) with
            | error span => rfl
            | ok r =>
                dsimp only
                split
                · rfl
                · refine ih _ _ fun c hc => hrest c ?_
                  exact (parseStringLit_suffix hlit).mem ((List.dropWhile_suffix _).mem hc)
        · rfl

theorem contents_body {Path : Type} (fs : FileSystem Path) (readAs readAs' : Char → List Char)
    (f : Path) :
    (contents fs readAs f).map Prod.snd = (contents fs readAs' f).map Prod.snd := by
  unfold contents
  cases fs.readToString f with
  | error e => rfl
  | ok raw =>
      have hscan := leadingIncludes_readAs readAs readAs' (fs.display f) raw (raw.length + 1)
        raw [] []
      change (Except.toOption _).map _ = (Except.toOption _).map _
      unfold stripLeadingIncludes
      revert hscan
      cases leadingIncludes readAs (fs.display f) raw (raw.length + 1) raw [] with
      | error e =>
          cases leadingIncludes readAs' (fs.display f) raw (raw.length + 1) raw [] with
          | error e' => exact fun _ => rfl
          | ok c' => rintro ⟨⟩
      | ok c =>
          cases leadingIncludes readAs' (fs.display f) raw (raw.length + 1) raw [] with
          | error e' => rintro ⟨⟩
          | ok c' =>
              intro hscan
              exact congrArg some (Except.ok.inj hscan)

theorem fileRules_readAs {Path : Type} (fs : FileSystem Path) (parse : Parser)
    (readAs readAs' : Char → List Char) :
    fileRules fs parse readAs = fileRules fs parse readAs' := by
  funext f
  have hbody := contents_body fs readAs readAs' f
  unfold fileRules
  revert hbody
  cases contents fs readAs f with
  | none =>
      cases contents fs readAs' f with
      | none => exact fun _ => rfl
      | some c' => rintro ⟨⟩
  | some c =>
      cases contents fs readAs' f with
      | none => rintro ⟨⟩
      | some c' =>
          intro hbody
          have hbody : c.2 = c'.2 := Option.some.inj hbody
          change (rulesTextFromBody parse c.2).toOption.getD [] =
            (rulesTextFromBody parse c'.2).toOption.getD []
          rw [hbody]

end Adgl.Include
