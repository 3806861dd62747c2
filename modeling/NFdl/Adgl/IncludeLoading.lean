import NFdl.Adgl.IncludeExact
import NFdl.Adgl.RulePlaces

/-!
# Loading

Loading a file ends, and it fails only because of a file that cannot be loaded or is on a
cycle. So it composes exactly the graph of the files, as far as the paths of the directives
are read as they are written: the loader takes every byte of a path for a character.
-/

namespace Adgl.Include

open Diag (Span)
open Text (byteLength map_eq_ok)

/-! ### Failures -/

section Failures

variable {Path : Type} {fs : FileSystem Path} {parse : Parser} {start : Path}

/-- A failure comes from a file that cannot be loaded or is on a cycle. -/
def Blamed (fs : FileSystem Path) (parse : Parser) (start : Path) (e : Failure) : Prop :=
  e ≠ .tooDeep ∧ ∃ f, Reaches fs bytesAsChars start f ∧
    (Relation.TransGen (Includes fs bytesAsChars) f f ∨ ¬ Loadable fs parse bytesAsChars f)

/-- The way to a file: the files on the stack, each once, and every one of them reaches it. -/
structure OnTheWay (fs : FileSystem Path) (start : Path) (stack : List Path) (path : Path) :
    Prop where
  nodup : stack.Nodup
  known : ∀ s ∈ stack, s ∈ fs.files
  reached : ∀ canon, fs.canonicalize path = .ok canon → Reaches fs bytesAsChars start canon ∧
    ∀ s ∈ stack, Relation.TransGen (Includes fs bytesAsChars) s canon

theorem length_le_files [DecidableEq Path] {stack : List Path} (hnodup : stack.Nodup)
    (hknown : ∀ s ∈ stack, s ∈ fs.files) : stack.length ≤ fs.files.card := by
  rw [← List.toFinset_card_of_nodup hnodup]
  exact Finset.card_le_card fun s hs => hknown s (List.mem_toFinset.mp hs)

theorem rulesText_bound {body : List Char} : rulesTextFromBody parse body ≠ .error .tooDeep := by
  unfold rulesTextFromBody
  split
  · nofun
  · rename_i ast _
    have hfold : ∀ (spans : List Span) (out : List Char),
        spans.foldlM (fun out span =>
          if byteLength body < span.stop ∨ span.stop < span.start then
            (.error (.diags [.error "ADGL4003"
              "internal error: rule span out of bounds while expanding include" .unknown]) :
              Except Failure (List Char))
          else .ok (out ++ Text.trim (slice body span) ++ ['\n'])) out ≠ .error .tooDeep := by
      intro spans
      induction spans with
      | nil => nofun
      | cons span spans ih =>
          intro out
          rw [List.foldlM_cons]
          split
          · nofun
          · exact ih _
    exact hfold _ _

variable {expand : Path → Span → Traversal Path → Except Failure (ExpandedFile × Traversal Path)}

/-- An include of a file fails only because of a file that it reaches. -/
theorem expandInclude_error (hexact : Exact fs parse expand) {canon : Path}
    (hreach : Reaches fs bytesAsChars start canon) {c : List IncludeDir × List Char}
    (hcontents : contents fs bytesAsChars canon = some c) {dir : IncludeDir} (hdir : dir ∈ c.1)
    {acc : List Char × Traversal Path} {e : Failure}
    (hchild : ∀ e, expand (fs.join (fs.parent canon) dir.path) dir.span acc.2 = .error e →
      e ≠ .tooDeep ∧ (Blamed fs parse start e ∨ target fs canon dir = none))
    (h : expandInclude fs parse expand (fs.parent canon) acc dir = .error e) :
    Blamed fs parse start e := by
  unfold expandInclude at h
  split at h
  · rename_i e' hfail
    cases h
    obtain ⟨hbound, hblamed | hnone⟩ := hchild e hfail
    · exact hblamed
    · refine ⟨hbound, canon, hreach, .inr ?_⟩
      rintro ⟨c', hc', htargets, -⟩
      obtain rfl := Option.some.inj (hcontents.symm.trans hc')
      obtain ⟨g, hg⟩ := htargets dir hdir
      rw [hnone] at hg
      cases hg
  · rename_i child t' hok
    obtain ⟨g, front, hg, hx⟩ := hexact _ _ _ _ _ hok
    dsimp only at h
    split at h
    · rename_i hown
      obtain ⟨dirs, hown, -⟩ := hx.own hown
      split at h
      · rename_i e' hrules
        cases h
        refine ⟨fun hdeep => rulesText_bound (hdeep ▸ hrules), g, ?_, .inr ?_⟩
        · exact hreach.tail ⟨c, hcontents, dir, hdir, target_eq_some.mpr hg⟩
        · rintro ⟨c', hc', -, rules, hrules'⟩
          obtain rfl := Option.some.inj (hown.symm.trans hc')
          rw [hrules] at hrules'
          cases hrules'
      · cases h
    · cases h

/-- The includes of a file fail only because of a file that they reach. The induction is on
the includes that are left. -/
theorem expandIncludes_error (hexact : Exact fs parse expand) {canon : Path}
    (hreach : Reaches fs bytesAsChars start canon) {c : List IncludeDir × List Char}
    (hcontents : contents fs bytesAsChars canon = some c) (stack : List Path)
    (hchild : ∀ dir ∈ c.1, ∀ t : Traversal Path, t.stack = stack → ∀ e,
      expand (fs.join (fs.parent canon) dir.path) dir.span t = .error e →
      e ≠ .tooDeep ∧ (Blamed fs parse start e ∨ target fs canon dir = none))
    {dirs : List IncludeDir} (hdirs : ∀ dir ∈ dirs, dir ∈ c.1)
    {acc : List Char × Traversal Path} (hlines : Lines acc.1) (hstack : acc.2.stack = stack)
    {e : Failure}
    (h : dirs.foldlM (expandInclude fs parse expand (fs.parent canon)) acc = .error e) :
    Blamed fs parse start e := by
  induction dirs generalizing acc with
  | nil => cases h
  | cons dir dirs ih =>
      rw [List.foldlM_cons] at h
      have hdir : dir ∈ c.1 := hdirs dir (List.mem_cons_self ..)
      cases hfirst : expandInclude fs parse expand (fs.parent canon) acc dir with
      | error e' =>
          rw [hfirst] at h
          cases h
          exact expandInclude_error hexact hreach hcontents hdir (hchild dir hdir _ hstack) hfirst
      | ok mid =>
          rw [hfirst] at h
          obtain ⟨g, new, -, hnew, htext, -, -⟩ := expandInclude_ok hexact hlines hfirst
          refine ih (fun d hd => hdirs d (List.mem_cons_of_mem _ hd)) ?_ ?_ h
          · rw [htext]
            exact hlines.append (rules_lines bytesAsChars new)
          · rw [hnew.stack, hstack]

theorem OnTheWay.child {stack : List Path} {path canon : Path} {dir : IncludeDir}
    (hway : OnTheWay fs start stack path) (hcanon : fs.canonicalize path = .ok canon)
    (hnew : canon ∉ stack) {c : List IncludeDir × List Char}
    (hcontents : contents fs bytesAsChars canon = some c) (hdir : dir ∈ c.1) :
    OnTheWay fs start (stack ++ [canon]) (fs.join (fs.parent canon) dir.path) where
  nodup := by
    refine List.nodup_append.mpr ⟨hway.nodup, List.nodup_singleton _, ?_⟩
    rintro s hs _ hs' rfl
    exact hnew (List.mem_singleton.mp hs' ▸ hs)
  known := by
    intro s hs
    obtain hs | hs := List.mem_append.mp hs
    · exact hway.known s hs
    · rw [List.mem_singleton.mp hs]
      exact fs.mem_files _ _ hcanon
  reached := by
    intro g hg
    have hstep : Includes fs bytesAsChars canon g :=
      ⟨c, hcontents, dir, hdir, target_eq_some.mpr hg⟩
    obtain ⟨hstart, hstack⟩ := hway.reached canon hcanon
    refine ⟨hstart.tail hstep, fun s hs => ?_⟩
    obtain hs | hs := List.mem_append.mp hs
    · exact (hstack s hs).tail hstep
    · rw [List.mem_singleton.mp hs]
      exact .single hstep

variable [DecidableEq Path]

/-- An expansion fails only because of a file that it reaches, when there are not more files
than may be entered. The induction is on the depth. -/
theorem expandFile_error {depth : ℕ} {path : Path} {span : Span} {t : Traversal Path}
    {e : Failure} (hway : OnTheWay fs start t.stack path)
    (hdepth : fs.files.card < depth + t.stack.length)
    (h : expandFile fs parse depth path span t = .error e) :
    e ≠ .tooDeep ∧ (Blamed fs parse start e ∨ (fs.canonicalize path).toOption = none) := by
  induction depth generalizing path span t e with
  | zero =>
      have hfiles := length_le_files hway.nodup hway.known
      omega
  | succ depth ih =>
      unfold expandFile canonicalizeExisting at h
      cases hcanon : fs.canonicalize path with
      | error message =>
          rw [hcanon] at h
          cases h
          exact ⟨fun hdeep => (by cases hdeep), .inr rfl⟩
      | ok canon =>
          rw [hcanon] at h
          dsimp only at h
          obtain ⟨hreach, hcycle⟩ := hway.reached canon hcanon
          refine (fun hblamed : Blamed fs parse start e => ⟨hblamed.1, .inl hblamed⟩) ?_
          split at h
          · rename_i hin
            cases h
            exact ⟨fun hdeep => (by cases hdeep), canon, hreach, .inl (hcycle canon hin)⟩
          · rename_i hnew
            split at h
            · cases h
            · split at h
              · rename_i e' hread
                cases h
                refine ⟨fun hdeep => readFile_bound _ _ _ _ _ (hdeep ▸ hread), canon, hreach,
                  .inr ?_⟩
                rintro ⟨c, hc, -⟩
                rw [readFile_eq_ok.mpr hc] at hread
                cases hread
              · rename_i dirs body hread
                split at h
                · rename_i e' hfold
                  cases h
                  have hcontents := readFile_eq_ok.mp hread
                  refine expandIncludes_error (expandFile_exact fs parse depth) hreach hcontents
                    (t.stack ++ [canon]) ?_ (fun _ hd => hd) (.inl rfl) rfl hfold
                  intro dir hdir t' ht' e' hfail
                  refine ih (ht' ▸ hway.child hcanon hnew hcontents hdir) ?_ hfail
                  rw [ht', List.length_append, List.length_singleton]
                  omega
                · cases h

end Failures

/-! ### The bound on the depth -/

section Depth

variable {Path : Type} {fs : FileSystem Path} {parse : Parser}
variable {expand expand' : Path → Span → Traversal Path →
  Except Failure (ExpandedFile × Traversal Path)}

/-- A way to expand files that does the same as another one where that one was given enough
depth. -/
def Deeper (expand expand' : Path → Span → Traversal Path →
    Except Failure (ExpandedFile × Traversal Path)) : Prop :=
  ∀ path span t, expand path span t ≠ .error .tooDeep → expand' path span t = expand path span t

theorem expandInclude_deeper (h : Deeper expand expand') {parent : Path}
    {acc : List Char × Traversal Path} {dir : IncludeDir}
    (hdeep : expandInclude fs parse expand parent acc dir ≠ .error .tooDeep) :
    expandInclude fs parse expand' parent acc dir =
      expandInclude fs parse expand parent acc dir := by
  unfold expandInclude at hdeep ⊢
  rw [h]
  intro hfail
  rw [hfail] at hdeep
  exact hdeep rfl

theorem expandIncludes_deeper (h : Deeper expand expand') {parent : Path}
    {dirs : List IncludeDir} {acc : List Char × Traversal Path}
    (hdeep : dirs.foldlM (expandInclude fs parse expand parent) acc ≠ .error .tooDeep) :
    dirs.foldlM (expandInclude fs parse expand' parent) acc =
      dirs.foldlM (expandInclude fs parse expand parent) acc := by
  induction dirs generalizing acc with
  | nil => rfl
  | cons dir dirs ih =>
      rw [List.foldlM_cons] at hdeep ⊢
      have hfirst : expandInclude fs parse expand parent acc dir ≠ .error .tooDeep := by
        intro hfail
        rw [hfail] at hdeep
        exact hdeep rfl
      rw [List.foldlM_cons, expandInclude_deeper h hfirst]
      cases hmid : expandInclude fs parse expand parent acc dir with
      | error e => rfl
      | ok mid =>
          rw [hmid] at hdeep
          exact ih hdeep

variable [DecidableEq Path]

/-- More depth does not change a result. -/
theorem expandFile_deeper (depth : ℕ) :
    Deeper (expandFile fs parse depth) (expandFile fs parse (depth + 1)) := by
  induction depth with
  | zero =>
      intro path span t hdeep
      exact absurd rfl hdeep
  | succ depth ih =>
      intro path span t hdeep
      rw [expandFile]
      unfold expandFile at hdeep ⊢
      cases hcanon : canonicalizeExisting fs path span with
      | error e => rfl
      | ok canon =>
          rw [hcanon] at hdeep
          dsimp only at hdeep ⊢
          split
          · rfl
          · rename_i hnew
            rw [if_neg hnew] at hdeep
            split
            · rfl
            · rename_i hold
              rw [if_neg hold] at hdeep
              cases hread : readFile fs bytesAsChars path canon span with
              | error e => rfl
              | ok c =>
                  rw [hread] at hdeep
                  dsimp only at hdeep ⊢
                  rw [expandIncludes_deeper ih]
                  intro hfail
                  rw [hfail] at hdeep
                  exact hdeep rfl

end Depth

/-! ### Composition -/

section Composition

variable {Path : Type} (fs : FileSystem Path) (parse : Parser) (readAs : Char → List Char)

/-- Every character of a path is read as itself. -/
def asWritten (c : Char) : List Char := [c]

/-- The byte at which the header of a ruleset ends: its first rule or its closing brace. -/
def headerEnd {body : List Char} (ast : ParsedRuleset body) : ℕ :=
  match ast.rules with
  | rule :: _ => rule.start
  | [] => ast.span.stop - 1

/-- The source of a ruleset with imported rules: its header, these rules, and its own. -/
def Spliced (body imported source : List Char) : Prop :=
  if imported = [] then source = body
  else ∃ ast, parse body = .ok ast ∧
    source = endLine (endLine (takeBytes (headerEnd ast) body) ++ imported) ++
      dropBytes (headerEnd ast) body

/-- The source has the rules of every file that is reached in front of the rules of the
entry, each file once and after the files that it includes. -/
def Composed (canon : Path) (source : List Char) : Prop :=
  ∃ dirs body front, contents fs readAs canon = some (dirs, body) ∧
    front.Nodup ∧ (∀ f, f ∈ front ↔ Reaches fs readAs canon f ∧ f ≠ canon) ∧
    Postorder (Includes fs readAs) [] (front ++ [canon]) ∧
    Spliced parse body (front.map (fileRules fs parse readAs)).flatten source

/-- The graph of the files that a file includes has no cycle, and all of them can be loaded. -/
def Sound (canon : Path) : Prop :=
  ∀ f, Reaches fs readAs canon f →
    ¬ Relation.TransGen (Includes fs readAs) f f ∧ Loadable fs parse readAs f

/-- A file that stops the loader: it is on a cycle, or it is not read or a directive of it
stands for no file, or it is not the entry and its rules cannot be parsed. -/
structure Stops (canon f : Path) : Prop where
  reached : Reaches fs readAs canon f
  failing : Relation.TransGen (Includes fs readAs) f f ∨
    (∀ c, contents fs readAs f = some c → ∃ dir ∈ c.1, target fs f dir = none) ∨
    f ≠ canon ∧ ¬ Loadable fs parse readAs f

/-- What loading a file does with the graph of the files that it includes. -/
structure ComposesExactly [DecidableEq Path] (path : Path) : Prop where
  terminates : loadRuleset fs parse path ≠ .error .tooDeep ∧
    ∀ depth, fs.files.card < depth → loadWithin fs parse depth path = loadRuleset fs parse path
  cycle : ∀ canon f, fs.canonicalize path = .ok canon → Reaches fs readAs canon f →
    Relation.TransGen (Includes fs readAs) f f →
    ∃ ds, loadRuleset fs parse path = .error (.diags ds)
  exact : ∀ canon loaded, fs.canonicalize path = .ok canon →
    loadRuleset fs parse path = .ok loaded → Composed fs parse readAs canon loaded.source
  complete : ∀ canon, fs.canonicalize path = .ok canon → Sound fs parse readAs canon →
    ∃ loaded, loadRuleset fs parse path = .ok loaded

end Composition

section Exactness

variable {Path : Type} {fs : FileSystem Path} {parse : Parser}

theorem insertAt_eq {body : List Char} (ast : ParsedRuleset body) :
    insertAt body ast = .ok (headerEnd ast) := by
  obtain ⟨hpos, hbrace, hboundary⟩ := ast.closing
  unfold insertAt headerEnd
  cases ast.rules with
  | cons rule rules => rfl
  | nil =>
      dsimp only
      rw [if_neg (Nat.ne_of_gt hpos), if_pos ⟨hbrace, hboundary⟩]

theorem composeEntry_eq_ok {body imported source : List Char} :
    composeEntry parse body imported = .ok source ↔ Spliced parse body imported source := by
  unfold composeEntry Spliced
  split
  · exact ⟨fun h => (Except.ok.inj h).symm, fun h => h ▸ rfl⟩
  · cases hparse : parse body with
    | error ds =>
        refine ⟨nofun, ?_⟩
        rintro ⟨ast, ⟨⟩, -⟩
    | ok ast =>
        dsimp only
        rw [insertAt_eq]
        constructor
        · intro h
          exact ⟨ast, rfl, (Except.ok.inj h).symm⟩
        · rintro ⟨_, ⟨⟩, rfl⟩
          rfl

theorem composeEntry_error {body imported : List Char} {e : Failure}
    (h : composeEntry parse body imported = .error e) :
    ∃ ds, parse body = .error ds ∧ e = .diags ds := by
  unfold composeEntry at h
  split at h
  · cases h
  · cases hparse : parse body with
    | error ds =>
        rw [hparse] at h
        cases h
        exact ⟨ds, rfl, rfl⟩
    | ok ast =>
        rw [hparse] at h
        dsimp only at h
        rw [insertAt_eq] at h
        cases h

theorem OnTheWay.entry {path start : Path}
    (h : ∀ canon, fs.canonicalize path = .ok canon → start = canon) :
    OnTheWay fs start [] path where
  nodup := .nil
  known := nofun
  reached := fun canon hcanon => ⟨h canon hcanon ▸ .refl, nofun⟩

/-- The entry of a successful expansion is expanded last. -/
theorem Expanded.entry {canon : Path} {x : ExpandedFile} {t : Traversal Path} {front : List Path}
    (h : Expanded fs parse canon ⟨[], [], []⟩ x t front) :
    (∃ dirs, contents fs bytesAsChars canon = some (dirs, x.body) ∧
        ∀ dir ∈ dirs, ∃ g, target fs canon dir = some g) ∧
      Postorder (Includes fs bytesAsChars) [] (front ++ [canon]) ∧ (front ++ [canon]).Nodup := by
  have hexpands := h.expands
  cases hown : x.emitOwnRules with
  | true =>
      rw [hown, if_pos rfl] at hexpands
      exact ⟨h.own hown, hexpands.ordered, hexpands.nodup⟩
  | false =>
      have hdone := hexpands.done ▸ h.done
      rw [hown, h.old hown] at hdone
      cases hdone

variable [DecidableEq Path]

theorem loadWithin_eq_ok {depth : ℕ} {path : Path} {loaded : LoadedRuleset Path}
    (h : loadWithin fs parse depth path = .ok loaded) :
    ∃ x t, expandFile fs parse depth path .unknown ⟨[], [], []⟩ = .ok (x, t) ∧
      composeEntry parse x.body x.importedRulesText = .ok loaded.source := by
  unfold loadWithin at h
  split at h
  · cases h
  · rename_i x t hexpand
    obtain ⟨source, hsource, rfl⟩ := map_eq_ok h
    exact ⟨x, t, hexpand, hsource⟩

theorem loadWithin_error {depth : ℕ} {path : Path} {e : Failure}
    (h : loadWithin fs parse depth path = .error e) :
    expandFile fs parse depth path .unknown ⟨[], [], []⟩ = .error e ∨
      ∃ x t, expandFile fs parse depth path .unknown ⟨[], [], []⟩ = .ok (x, t) ∧
        composeEntry parse x.body x.importedRulesText = .error e := by
  unfold loadWithin at h
  split at h
  · rename_i e' hexpand
    cases h
    exact .inl hexpand
  · rename_i x t hexpand
    refine .inr ⟨x, t, hexpand, ?_⟩
    cases hsource : composeEntry parse x.body x.importedRulesText with
    | error e' =>
        rw [hsource] at h
        cases h
        rfl
    | ok source =>
        rw [hsource] at h
        cases h

/-- A file that cannot be loaded fails with diagnostics, because of a file that it reaches. -/
theorem loadWithin_blames {depth : ℕ} {path canon : Path} {e : Failure}
    (hdepth : fs.files.card < depth) (hcanon : ∀ c, fs.canonicalize path = .ok c → canon = c)
    (h : loadWithin fs parse depth path = .error e) :
    e ≠ .tooDeep ∧ (Blamed fs parse canon e ∨ (fs.canonicalize path).toOption = none) := by
  obtain hexpand | ⟨x, t, hexpand, hsource⟩ := loadWithin_error h
  · exact expandFile_error (.entry hcanon) hdepth hexpand
  · obtain ⟨ds, hparse, rfl⟩ := composeEntry_error hsource
    obtain ⟨c, front, hc, hx⟩ := expandFile_exact fs parse depth _ _ _ _ _ hexpand
    obtain ⟨⟨dirs, hcontents, -⟩, -, -⟩ := hx.entry
    obtain rfl := hcanon c hc
    refine ⟨nofun, .inl ⟨nofun, canon, .refl, .inr ?_⟩⟩
    rintro ⟨c', hc', -, rules, hrules⟩
    obtain rfl := Option.some.inj (hcontents.symm.trans hc')
    unfold rulesTextFromBody at hrules
    dsimp only at hrules
    rw [hparse] at hrules
    cases hrules

theorem loadWithin_bound {depth : ℕ} {path : Path} (hdepth : fs.files.card < depth) :
    loadWithin fs parse depth path ≠ .error .tooDeep := by
  intro h
  cases hcanon : fs.canonicalize path with
  | ok canon =>
      have hsame : ∀ c, fs.canonicalize path = .ok c → canon = c :=
        fun c hc => Except.ok.inj (hcanon.symm.trans hc)
      exact (loadWithin_blames hdepth hsame h).1 rfl
  | error message =>
      have hsame : ∀ c, fs.canonicalize path = .ok c → path = c := by
        intro c hc
        rw [hcanon] at hc
        cases hc
      exact (loadWithin_blames hdepth hsame h).1 rfl

theorem loadWithin_deeper {depth : ℕ} {path : Path}
    (h : loadWithin fs parse depth path ≠ .error .tooDeep) :
    loadWithin fs parse (depth + 1) path = loadWithin fs parse depth path := by
  unfold loadWithin at h ⊢
  rw [expandFile_deeper depth]
  intro hfail
  rw [hfail] at h
  exact h rfl

theorem loadWithin_eq (path : Path) {depth : ℕ} (hdepth : fs.files.card < depth) :
    loadWithin fs parse depth path = loadRuleset fs parse path := by
  induction depth, hdepth using Nat.le_induction with
  | base => rfl
  | succ depth hle ih => exact (loadWithin_deeper (loadWithin_bound hle)).trans ih

/-- What is loaded is the expanded entry with the imported rules in it. -/
theorem loadRuleset_expanded {path canon : Path} {loaded : LoadedRuleset Path}
    (hcanon : fs.canonicalize path = .ok canon)
    (h : loadRuleset fs parse path = .ok loaded) :
    ∃ x t front, Expanded fs parse canon ⟨[], [], []⟩ x t front ∧
      Spliced parse x.body x.importedRulesText loaded.source := by
  obtain ⟨x, t, hexpand, hsource⟩ := loadWithin_eq_ok h
  obtain ⟨c, front, hc, hx⟩ := expandFile_exact fs parse _ _ _ _ _ _ hexpand
  obtain rfl := Except.ok.inj (hcanon.symm.trans hc)
  exact ⟨x, t, front, hx, composeEntry_eq_ok.mp hsource⟩

/-- The loader does not get past a file that stops it. -/
theorem loadRuleset_of_stops {path canon f : Path} (hcanon : fs.canonicalize path = .ok canon)
    (h : Stops fs parse bytesAsChars canon f) (loaded : LoadedRuleset Path) :
    loadRuleset fs parse path ≠ .ok loaded := by
  intro hload
  obtain ⟨x, t, front, hx, -⟩ := loadRuleset_expanded hcanon hload
  obtain ⟨⟨dirs, hcontents, htargets⟩, hordered, -⟩ := hx.entry
  have hentry : canon ∈ front ++ [canon] := List.mem_append_right _ (List.mem_singleton_self _)
  have hf : f ∈ front ∨ f = canon := by
    obtain hf | hf := List.mem_append.mp (hordered.reaches hentry h.reached)
    · exact .inl hf
    · exact .inr (List.mem_singleton.mp hf)
  have hstands : ∃ c, contents fs bytesAsChars f = some c ∧
      ∀ dir ∈ c.1, ∃ g, target fs f dir = some g := by
    obtain hf | rfl := hf
    · obtain ⟨c, hc, hdirs, -⟩ := hx.loadable f hf
      exact ⟨c, hc, hdirs⟩
    · exact ⟨(dirs, x.body), hcontents, htargets⟩
  obtain hcycle | hnone | ⟨hne, hfail⟩ := h.failing
  · exact hordered.acyclic (hordered.reaches hentry h.reached) hcycle
  · obtain ⟨c, hc, hdirs⟩ := hstands
    obtain ⟨dir, hdir, htarget⟩ := hnone c hc
    obtain ⟨g, hg⟩ := hdirs dir hdir
    rw [htarget] at hg
    cases hg
  · exact hfail (hx.loadable f (hf.resolve_right hne))

/-- Loading fails because of a file that it reaches. -/
theorem loadRuleset_blames {path canon : Path} {e : Failure}
    (hcanon : fs.canonicalize path = .ok canon)
    (h : loadRuleset fs parse path = .error e) : Blamed fs parse canon e := by
  have hsame : ∀ c, fs.canonicalize path = .ok c → canon = c :=
    fun c hc => Except.ok.inj (hcanon.symm.trans hc)
  obtain ⟨-, hblamed | hnone⟩ := loadWithin_blames (Nat.lt_succ_self _) hsame h
  · exact hblamed
  · rw [hcanon] at hnone
    cases hnone

/-- Loading composes the graph that it sees, where every byte of a path is a character. -/
theorem composes_bytes (fs : FileSystem Path) (parse : Parser) (path : Path) :
    ComposesExactly fs parse bytesAsChars path := by
  refine ⟨⟨loadWithin_bound (Nat.lt_succ_self _), fun depth => loadWithin_eq path⟩, ?_, ?_, ?_⟩
  · intro canon f hcanon hreach hcycle
    cases h : loadRuleset fs parse path with
    | ok loaded =>
        obtain ⟨x, t, front, hx, -⟩ := loadRuleset_expanded hcanon h
        obtain ⟨-, hordered, -⟩ := hx.entry
        have hentry : canon ∈ front ++ [canon] :=
          List.mem_append_right _ (List.mem_singleton_self _)
        exact absurd hcycle (hordered.acyclic (hordered.reaches hentry hreach))
    | error e =>
        cases e with
        | diags ds => exact ⟨ds, rfl⟩
        | tooDeep => exact absurd h (loadWithin_bound (Nat.lt_succ_self _))
  · intro canon loaded hcanon h
    obtain ⟨x, t, front, hx, hspliced⟩ := loadRuleset_expanded hcanon h
    obtain ⟨⟨dirs, hcontents, -⟩, hordered, hnodup⟩ := hx.entry
    obtain ⟨hfront, -, hnew⟩ := List.nodup_append.mp hnodup
    refine ⟨dirs, x.body, front, hcontents, hfront, fun f => ⟨fun hf => ?_, ?_⟩, hordered,
      hx.imported ▸ hspliced⟩
    · exact ⟨(hx.reached f hf).to_reflTransGen, hnew f hf canon (List.mem_singleton_self _)⟩
    · rintro ⟨hreach, hne⟩
      have hentry : canon ∈ front ++ [canon] := List.mem_append_right _ (List.mem_singleton_self _)
      obtain hf | hf := List.mem_append.mp (hordered.reaches hentry hreach)
      · exact hf
      · exact absurd (List.mem_singleton.mp hf) hne
  · intro canon hcanon hgood
    cases h : loadRuleset fs parse path with
    | ok loaded => exact ⟨loaded, rfl⟩
    | error e =>
        obtain ⟨-, f, hreach, hbad⟩ := loadRuleset_blames hcanon h
        obtain ⟨hacyclic, hloadable⟩ := hgood f hreach
        obtain hcycle | hfail := hbad
        · exact absurd hcycle hacyclic
        · exact absurd hloadable hfail

end Exactness

/-! ### Paths as they are written -/

section Written

variable {Path : Type} {fs : FileSystem Path} {parse : Parser} {f g : Path}

/-- The files that the directives of a file stand for. -/
def targets (fs : FileSystem Path) (readAs : Char → List Char) (f : Path) :
    Option (List (Option Path)) :=
  (contents fs readAs f).map fun c => c.1.map (target fs f)

/-- The directives of a file stand for the same files when every byte of a path is taken
for a character as when the paths are read as they are written. -/
def ReadAsWritten (fs : FileSystem Path) (f : Path) : Prop :=
  targets fs bytesAsChars f = targets fs asWritten f

theorem bytesAsChars_ascii {c : Char} (h : c.toNat < 128) : bytesAsChars c = asWritten c := by
  have hval : c.val.toNat ≤ 127 := Nat.le_of_lt_succ h
  have hbyte : (UInt8.ofNat c.val.toNat).toNat = c.toNat := by
    rw [UInt8.toNat_ofNat']
    exact Nat.mod_eq_of_lt (Nat.lt_trans h (by decide))
  have hencode : String.utf8EncodeChar c = [UInt8.ofNat c.val.toNat] := by
    unfold String.utf8EncodeChar
    simp only [hval, if_pos]
  unfold bytesAsChars asWritten
  rw [hencode, List.map_singleton, hbyte, Char.ofNat_toNat]

/-- The paths of a file without characters beyond ASCII are read as they are written. -/
theorem readAsWritten_of_ascii
    (h : ∀ raw, fs.readToString f = .ok raw → ∀ c ∈ raw, c.toNat < 128) :
    ReadAsWritten fs f := by
  unfold ReadAsWritten targets contents
  cases hraw : fs.readToString f with
  | error e => rfl
  | ok raw =>
      have hchars : ∀ c ∈ raw, bytesAsChars c = asWritten c :=
        fun c hc => bytesAsChars_ascii (h raw hraw c hc)
      unfold stripLeadingIncludes
      dsimp only
      rw [leadingIncludes_congr _ _ _ _ _ hchars]

theorem includes_iff {readAs : Char → List Char} :
    Includes fs readAs f g ↔ ∃ ts, targets fs readAs f = some ts ∧ some g ∈ ts := by
  constructor
  · rintro ⟨c, hc, dir, hdir, hg⟩
    exact ⟨c.1.map (target fs f), congrArg _ hc, List.mem_map.mpr ⟨dir, hdir, hg⟩⟩
  · rintro ⟨ts, hts, hg⟩
    obtain ⟨c, hc, rfl⟩ := Option.map_eq_some_iff.mp hts
    obtain ⟨dir, hdir, hg⟩ := List.mem_map.mp hg
    exact ⟨c, hc, dir, hdir, hg⟩

theorem loadable_iff {readAs : Char → List Char} :
    Loadable fs parse readAs f ↔ (∃ ts, targets fs readAs f = some ts ∧ none ∉ ts) ∧
      ∃ body, (contents fs readAs f).map Prod.snd = some body ∧
        ∃ rules, rulesTextFromBody parse body = .ok rules := by
  constructor
  · rintro ⟨c, hc, htargets, hrules⟩
    refine ⟨⟨c.1.map (target fs f), congrArg _ hc, ?_⟩, c.2, congrArg _ hc, hrules⟩
    intro hnone
    obtain ⟨dir, hdir, hnone⟩ := List.mem_map.mp hnone
    obtain ⟨g, hg⟩ := htargets dir hdir
    rw [hnone] at hg
    cases hg
  · rintro ⟨⟨ts, hts, hnone⟩, body, hbody, hrules⟩
    obtain ⟨c, hc, rfl⟩ := Option.map_eq_some_iff.mp hts
    rw [hc] at hbody
    obtain rfl := Option.some.inj hbody
    refine ⟨c, hc, fun dir hdir => ?_, hrules⟩
    cases hg : target fs f dir with
    | none => exact absurd (List.mem_map.mpr ⟨dir, hdir, hg⟩) hnone
    | some g => exact ⟨g, rfl⟩

/-! ### One directory -/

/-- A directory of files, each with its name and its text. -/
def directory (entries : List (List Char × List Char)) : FileSystem (List Char) where
  canonicalize path :=
    if path ∈ entries.map Prod.fst then .ok path
    else .error "No such file or directory (os error 2)"
  readToString path :=
    match entries.lookup path with
    | some text => .ok text
    | none => .error "No such file or directory (os error 2)"
  parent _ := []
  join parent path := parent ++ path
  display := String.ofList
  fileName path := some (String.ofList path)
  files := (entries.map Prod.fst).toFinset
  mem_files := by
    intro path canon h
    split at h
    · rename_i hmem
      cases h
      exact List.mem_toFinset.mpr hmem
    · cases h

/-- A ruleset with one rule. -/
def oneRule : List Char :=
  "ruleset \"r\" \x7b version = \"1\" evidence e \x7b scope: AccessPoint ".toList ++
    "anchor a: event(t) \x7b a.x == 1 \x7d infer Cause(C) \x7b target: a.target, ".toList ++
    "weight: +10, evidence: [a] \x7d \x7d \x7d".toList

/-- An entry that includes a file of the given name. -/
def pair (name : String) : FileSystem (List Char) :=
  directory [("main.adgl".toList, "include \"".toList ++ name.toList ++ "\"\n".toList ++ oneRule),
    (name.toList, oneRule)]

theorem directory_ascii {entries : List (List Char × List Char)} {f : List Char}
    (h : entries.all (fun e => e.2.all fun c => decide (c.toNat < 128)) = true) :
    ReadAsWritten (directory entries) f := by
  refine readAsWritten_of_ascii fun raw hraw c hc => ?_
  change (match entries.lookup f with | some text => Except.ok text | none => _) = _ at hraw
  split at hraw
  · rename_i text hlookup
    cases hraw
    obtain ⟨l₁, l₂, rfl, -⟩ := List.lookup_eq_some_iff.mp hlookup
    have hall := List.all_eq_true.mp h (f, raw) (by simp)
    exact of_decide_eq_true (List.all_eq_true.mp hall c hc)
  · cases hraw

/-- When the paths of every file that the entry reaches are read as they are written, loading
composes the graph of the files exactly. -/
theorem composes_written [DecidableEq Path] (fs : FileSystem Path) (parse : Parser) (path : Path)
    (h : ∀ canon f, fs.canonicalize path = .ok canon → Reaches fs asWritten canon f →
      ReadAsWritten fs f) :
    ComposesExactly fs parse asWritten path := by
  have hseen := composes_bytes fs parse path
  have hagree : ∀ canon, fs.canonicalize path = .ok canon → ∀ f, Reaches fs asWritten canon f →
      ∀ g, Includes fs asWritten f g ↔ Includes fs bytesAsChars f g := by
    intro canon hcanon f hf g
    have htargets : targets fs bytesAsChars f = targets fs asWritten f := h canon f hcanon hf
    rw [includes_iff, includes_iff, htargets]
  have hreach : ∀ canon, fs.canonicalize path = .ok canon → ∀ f,
      Reaches fs asWritten canon f ↔ Reaches fs bytesAsChars canon f :=
    fun canon hcanon f => reaches_congr (hagree canon hcanon)
  refine ⟨hseen.terminates, ?_, ?_, ?_⟩
  · intro canon f hcanon hf hcycle
    refine hseen.cycle canon f hcanon ((hreach canon hcanon f).mp hf) ?_
    exact (transGen_congr (hagree canon hcanon) hf).mp hcycle
  · intro canon loaded hcanon hload
    obtain ⟨dirs, body, front, hcontents, hnodup, hfront, hordered, hspliced⟩ :=
      hseen.exact canon loaded hcanon hload
    have hbody : (contents fs asWritten canon).map Prod.snd = some body := by
      rw [contents_body fs asWritten bytesAsChars, hcontents]
      rfl
    obtain ⟨⟨dirs', _⟩, hcontents', rfl⟩ := Option.map_eq_some_iff.mp hbody
    refine ⟨dirs', _, front, hcontents', hnodup, fun f => ?_, ?_, ?_⟩
    · rw [hfront, hreach canon hcanon]
    · have hagree' : ∀ f, Reaches fs bytesAsChars canon f → ∀ g,
          Includes fs bytesAsChars f g ↔ Includes fs asWritten f g :=
        fun f hf g => (hagree canon hcanon f ((hreach canon hcanon f).mpr hf) g).symm
      refine hordered.congr hagree' fun f hf => ?_
      obtain hf | hf := List.mem_append.mp hf
      · exact ((hfront f).mp hf).1
      · rw [List.mem_singleton.mp hf]
    · rwa [fileRules_readAs fs parse asWritten bytesAsChars]
  · intro canon hcanon hgood
    refine hseen.complete canon hcanon fun f hf => ?_
    have hf := (hreach canon hcanon f).mpr hf
    obtain ⟨hacyclic, hloadable⟩ := hgood f hf
    refine ⟨fun hcycle => hacyclic ((transGen_congr (hagree canon hcanon) hf).mpr hcycle), ?_⟩
    have htargets : targets fs bytesAsChars f = targets fs asWritten f := h canon f hcanon hf
    rw [loadable_iff] at hloadable ⊢
    rwa [contents_body fs bytesAsChars asWritten, htargets]

/-- Where the loader is stopped, it does what it should exactly if the files as they are written
cannot all be loaded either. -/
theorem composes_of_stops [DecidableEq Path] (fs : FileSystem Path) (parse : Parser) (path : Path)
    {canon f : Path} (hcanon : fs.canonicalize path = .ok canon)
    (h : Stops fs parse bytesAsChars canon f) :
    ComposesExactly fs parse asWritten path ↔ ¬ Sound fs parse asWritten canon := by
  have hseen := composes_bytes fs parse path
  have hsame : ∀ c, fs.canonicalize path = .ok c → c = canon :=
    fun c hc => Except.ok.inj (hc.symm.trans hcanon)
  constructor
  · intro hcomposes hsound
    obtain ⟨loaded, hloaded⟩ := hcomposes.complete canon hcanon hsound
    exact loadRuleset_of_stops hcanon h loaded hloaded
  · intro hunsound
    refine ⟨hseen.terminates, ?_, ?_, ?_⟩
    · intro _ _ _ _ _
      cases hload : loadRuleset fs parse path with
      | ok loaded => exact absurd hload (loadRuleset_of_stops hcanon h loaded)
      | error e =>
          cases e with
          | diags ds => exact ⟨ds, rfl⟩
          | tooDeep => exact absurd hload hseen.terminates.1
    · intro _ loaded _ hload
      exact absurd hload (loadRuleset_of_stops hcanon h loaded)
    · intro c hc hsound
      exact absurd (hsame c hc ▸ hsound) hunsound

/-- Loading composes the graph of the files exactly when the paths of every file that the entry
reaches are read as they are written, or when a file stops the loader and the files as they are
written cannot all be loaded either. Where a file stops the loader, only then. -/
theorem include_composition [DecidableEq Path] (fs : FileSystem Path) (parse : Parser)
    (path : Path) :
    ((∀ canon, fs.canonicalize path = .ok canon →
        (∀ f, Reaches fs asWritten canon f → ReadAsWritten fs f) ∨
          (∃ f, Stops fs parse bytesAsChars canon f) ∧ ¬ Sound fs parse asWritten canon) →
      ComposesExactly fs parse asWritten path) ∧
    ∀ canon f, fs.canonicalize path = .ok canon → Stops fs parse bytesAsChars canon f →
      (ComposesExactly fs parse asWritten path ↔ ¬ Sound fs parse asWritten canon) := by
  refine ⟨fun h => ?_, fun canon f hcanon hstops => composes_of_stops fs parse path hcanon hstops⟩
  cases hcanon : fs.canonicalize path with
  | error message =>
      refine composes_written fs parse path fun canon _ hc => ?_
      rw [hcanon] at hc
      cases hc
  | ok canon =>
      obtain hread | ⟨⟨f, hstops⟩, hunsound⟩ := h canon hcanon
      · refine composes_written fs parse path fun c f hc hf => ?_
        obtain rfl := Except.ok.inj (hcanon.symm.trans hc)
        exact hread f hf
      · exact (composes_of_stops fs parse path hcanon hstops).mpr hunsound

theorem include_composition_pair :
    ComposesExactly (pair "a.adgl") placedParser asWritten "main.adgl".toList :=
  (include_composition _ _ _).1 fun _ _ => .inl fun _ _ => directory_ascii (by decide +kernel)

/-- The files of the pair with an accented name can be loaded, but loading them fails. -/
theorem accented_pair :
    targets (pair "é.adgl") asWritten "main.adgl".toList = some [some "é.adgl".toList] ∧
      targets (pair "é.adgl") asWritten "é.adgl".toList = some [] ∧
      (∀ f ∈ ["main.adgl".toList, "é.adgl".toList],
        (contents (pair "é.adgl") asWritten f).map Prod.snd = some oneRule) ∧
      (rulesTextFromBody placedParser oneRule).isOk = true ∧
      (loadRuleset (pair "é.adgl") placedParser "main.adgl".toList).isOk = false := by
  decide +kernel

/-- A file whose name is not ASCII is not found. -/
theorem accented_include_not_composed :
    ¬ ComposesExactly (pair "é.adgl") placedParser asWritten "main.adgl".toList := by
  intro h
  obtain ⟨hmain, haccent, hbodies, hok, hfails⟩ := accented_pair
  have hordered : Postorder (Includes (pair "é.adgl") asWritten) []
      (["é.adgl".toList] ++ ["main.adgl".toList]) := by
    refine .append (.singleton ?_) (.singleton ?_)
    · intro g hg
      obtain ⟨ts, hts, hmem⟩ := includes_iff.mp hg
      rw [haccent] at hts
      cases hts
      cases hmem
    · intro g hg
      obtain ⟨ts, hts, hmem⟩ := includes_iff.mp hg
      rw [hmain] at hts
      cases hts
      exact List.mem_singleton.mpr (Option.some.inj (List.mem_singleton.mp hmem))
  have hrules : ∃ rules, rulesTextFromBody placedParser oneRule = .ok rules := by
    cases hrules : rulesTextFromBody placedParser oneRule with
    | ok rules => exact ⟨rules, rfl⟩
    | error e =>
        rw [hrules] at hok
        cases hok
  have hcanon : (pair "é.adgl").canonicalize "main.adgl".toList = .ok "main.adgl".toList := by
    simp [pair, directory]
  obtain ⟨loaded, hloaded⟩ := h.complete "main.adgl".toList hcanon fun f hf => by
    have hf := hordered.reaches (by simp) hf
    refine ⟨hordered.acyclic hf, ?_⟩
    rw [loadable_iff]
    obtain rfl | rfl := List.mem_pair.mp hf
    · exact ⟨⟨_, haccent, List.not_mem_nil⟩, oneRule, hbodies _ (by simp), hrules⟩
    · exact ⟨⟨_, hmain, by simp⟩, oneRule, hbodies _ (by simp), hrules⟩
  rw [hloaded] at hfails
  cases hfails

end Written

end Adgl.Include
